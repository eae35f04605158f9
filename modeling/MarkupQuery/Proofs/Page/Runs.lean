import MarkupQuery.Page.Action
import MarkupQuery.Proofs.Query.Steps

namespace MarkupQuery.Page

namespace Action

variable {α β : Type} {action : Action α} {page later : Page}

theorem run_get_bind {next : Page → Action β} :
    StateT.run (get >>= next : Action β) page = StateT.run (next page) page := rfl

theorem run_read (f : Page → Except Error α) (page : Page) :
    StateT.run (read f) page = (f page, page) := by
  unfold read
  rw [run_get_bind]
  cases f page with
  | ok a => rfl
  | error e => rfl

theorem run_bind_eq_ok {next : α → Action β} {b : β} :
    StateT.run (action >>= next : Action β) page = (.ok b, later) ↔
      ∃ a middle, StateT.run action page = (.ok a, middle) ∧
        StateT.run (next a) middle = (.ok b, later) := by
  change ((ExceptT.bindCont next (StateT.run action page).1) (StateT.run action page).2) = _ ↔ _
  generalize StateT.run action page = result
  obtain ⟨value, middle⟩ := result
  cases value with
  | error e => exact ⟨nofun, nofun⟩
  | ok a =>
    refine ⟨fun h => ⟨a, middle, rfl, h⟩, ?_⟩
    rintro ⟨_, _, ⟨⟩, h⟩
    exact h

/-- An error comes from the first action, or from the second one on the page that the first left. -/
theorem run_bind_eq_error {next : α → Action β} {e : Error} :
    StateT.run (action >>= next : Action β) page = (.error e, later) ↔
      StateT.run action page = (.error e, later) ∨
      ∃ a middle, StateT.run action page = (.ok a, middle) ∧
        StateT.run (next a) middle = (.error e, later) := by
  change ((ExceptT.bindCont next (StateT.run action page).1) (StateT.run action page).2) = _ ↔ _
  generalize StateT.run action page = result
  obtain ⟨value, middle⟩ := result
  cases value with
  | error e' =>
    refine ⟨fun h => ?_, ?_⟩
    · obtain ⟨⟨⟩, rfl⟩ := Prod.mk.inj h
      exact .inl rfl
    · rintro (h | ⟨_, _, ⟨⟩, -⟩)
      obtain ⟨⟨⟩, rfl⟩ := Prod.mk.inj h
      rfl
  | ok a =>
    refine ⟨fun h => .inr ⟨a, middle, rfl, h⟩, ?_⟩
    rintro (⟨⟨⟩, -⟩ | ⟨_, _, ⟨⟩, h⟩)
    exact h

theorem run_read_eq_ok {f : Page → Except Error α} {a : α} :
    StateT.run (read f) page = (.ok a, later) ↔ f page = .ok a ∧ later = page := by
  rw [run_read, Prod.mk.injEq, eq_comm (a := page)]

end Action

open MarkupQuery.Query (bind_eq_ok)

variable {page later : Page} {text : String} {context : Context} {found : Matches}

/-- The page that a query is run on is the one that its context leaves. -/
theorem run_search_eq_ok : StateT.run (search text context) page = (.ok found, later) ↔
    ∃ h, StateT.run (queryContext context) page = (.ok h, later) ∧
      later.execute text (h.map Handle.site) = .ok found := by
  simp only [search, Action.run_bind_eq_ok, Action.run_read_eq_ok]
  constructor
  · rintro ⟨h, middle, hcontext, hfound, rfl⟩
    exact ⟨h, hcontext, hfound⟩
  · rintro ⟨h, hcontext, hfound⟩
    exact ⟨h, later, hcontext, hfound, rfl⟩

theorem run_selectElements_eq_ok :
    StateT.run (selectElements text context) page = (.ok found, later) ↔
      ∃ h query, StateT.run (queryContext context) page = (.ok h, later) ∧
        compiled text h.isSome = .ok query ∧
        later.execute query (h.map Handle.site) = .ok found := by
  simp only [selectElements, Action.run_bind_eq_ok, Action.run_read_eq_ok, bind_eq_ok]
  constructor
  · rintro ⟨h, middle, hcontext, ⟨query, hquery, hfound⟩, rfl⟩
    exact ⟨h, query, hcontext, hquery, hfound⟩
  · rintro ⟨h, query, hcontext, hquery, hfound⟩
    exact ⟨h, later, hcontext, ⟨query, hquery, hfound⟩, rfl⟩

theorem execute_eq_ok {at? : Option Query.Site} : page.execute text at? = .ok found ↔
    ∃ query start, page.scopedQuery text at? = .ok (query, start) ∧
      Query.select page.setting start query = .ok found.sites ∧ found.serial = page.serial := by
  simp only [execute, bind_eq_ok]
  constructor
  · rintro ⟨⟨query, start⟩, hscoped, sites, hsites, h⟩
    cases hselect : Query.select page.setting start query with
    | error e => simp [hselect, Except.mapError] at hsites
    | ok selected =>
      simp only [hselect, Except.mapError, Except.ok.injEq] at hsites
      obtain rfl := Except.ok.inj h
      exact ⟨query, start, hscoped, hsites ▸ hselect, rfl⟩
  · rintro ⟨query, start, hscoped, hselect, hserial⟩
    refine ⟨(query, start), hscoped, found.sites, by simp [hselect, Except.mapError], ?_⟩
    rw [← hserial]
    rfl

theorem serial_of_execute {at? : Option Query.Site} (h : page.execute text at? = .ok found) :
    found.serial = page.serial := by
  obtain ⟨_, _, -, -, hserial⟩ := execute_eq_ok.mp h
  exact hserial

end MarkupQuery.Page
