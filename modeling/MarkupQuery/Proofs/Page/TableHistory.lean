import Mathlib.Data.List.Induction
import Mathlib.Data.List.Nodup
import MarkupQuery.Proofs.Page.Registration

namespace MarkupQuery.PrefixTable

open MarkupQuery.Tree

inductive Event where
  | bound (qualifier uri : String)
  | dropped (qualifier : String)

namespace Event

def qualifier : Event → String
  | bound qualifier _ | dropped qualifier => qualifier

def uri? : Event → Option String
  | bound _ uri => some uri
  | dropped _ => none

def apply : Event → PrefixTable → PrefixTable
  | bound qualifier uri, table => table.register qualifier uri
  | dropped qualifier, table =>
    { table with entries := table.entries.eraseP fun entry => entry.1 == qualifier }

end Event

/-- What a prefix is bound to after some events: the last one about it decides. -/
def bound? (log : List Event) (qualifier : String) : Option String :=
  (log.reverse.find? fun event => event.qualifier == qualifier).bind Event.uri?

/-- The event at place `i` binds a prefix that was not bound before, and the prefix was not dropped
since. -/
def BoundSince (log : List Event) (qualifier : String) (i : Nat) : Prop :=
  ∃ before uri after, log = before ++ .bound qualifier uri :: after ∧ before.length = i ∧
    bound? before qualifier = none ∧ .dropped qualifier ∉ after

def declaredEvents (declared : List Declaration) : List Event :=
  declared.filterMap fun d => d.qualifier.map fun qualifier => .bound qualifier d.uri

/-- The default namespace is bound to the given prefix, or to the name of its element if that is
free. -/
def defaultEvents (log : List Event) (mode : Discovery) (name uri : String) : List Event :=
  match mode with
  | .defaultAs qualifier => [.bound qualifier uri]
  | _ => if (bound? log name).isSome then [] else [.bound name uri]

/-- What the namespaces declared on a root element amount to: those with a prefix come first, so the
default one finds their prefixes taken. -/
def discovered (log : List Event) (mode : Discovery) (doc : Document) : List Event :=
  match mode, doc.rootElement? with
  | .off, _ | _, none => []
  | _, some top =>
    let declared := discoverable doc top
    let written := declaredEvents declared
    written ++ match declared.find? fun d => d.qualifier.isNone with
      | some d => defaultEvents (log ++ written) mode ((doc.localName? top).getD "") d.uri
      | none => []

/-- Drops a prefix from a table that is passed on, whether there is one to drop or not. -/
def removal (qualifier : String) : ExceptT Page.Error (StateM PrefixTable) String := do
  match (← get).uri? qualifier with
  | none => throw (.unknownQualifier qualifier)
  | some uri => do
    modify fun table =>
      { table with entries := table.entries.eraseP fun entry => entry.1 == qualifier }
    pure uri

inductive Call where
  | register (qualifier uri : String)
  | remove (qualifier : String)
  | merge (other : PrefixTable)
  | setDefault (uri : Option String)
  | discover (mode : Discovery) (doc : Document)

namespace Call

def apply : Call → PrefixTable → PrefixTable
  | register qualifier uri, table => table.register qualifier uri
  | remove qualifier, table => (StateT.run (removal qualifier) table).2
  | merge other, table => table.merge other
  | setDefault uri, table => table.setDefault uri
  | discover mode doc, table => table.discover mode doc

def events (log : List Event) : Call → List Event
  | register qualifier uri => [.bound qualifier uri]
  | remove qualifier => [.dropped qualifier]
  | merge other => other.entries.map fun (qualifier, uri) => .bound qualifier uri
  | setDefault _ => []
  | discover mode doc => discovered log mode doc

end Call

def run (calls : List Call) : PrefixTable := calls.foldl (fun table call => call.apply table) .empty

def history (calls : List Call) : List Event :=
  calls.foldl (fun log call => log ++ call.events log) []

theorem run_removal (qualifier : String) (table : PrefixTable) :
    StateT.run (removal qualifier) table =
      match table.remove qualifier with
      | .ok (uri, left) => (.ok uri, left)
      | .error e => (.error e, table) := by
  have hget (next : PrefixTable → ExceptT Page.Error (StateM PrefixTable) String) :
      StateT.run (get >>= next : ExceptT Page.Error (StateM PrefixTable) String) table =
        StateT.run (next table) table := rfl
  rw [removal, hget, PrefixTable.remove]
  cases table.uri? qualifier <;> rfl

section Entries

variable {q p uri : String} {entries : List (String × String)}

theorem lookup_cons_pair {β : Type} (q : String) (value : β) (p : String)
    (entries : List (String × β)) :
    ((q, value) :: entries).lookup p = if q = p then some value else entries.lookup p := by
  rw [List.lookup_cons]
  by_cases hp : q = p
  · simp [hp]
  · simp [hp, beq_eq_false_iff_ne.mpr (Ne.symm hp)]

theorem lookup_bind (q uri : String) (entries : List (String × String)) (p : String) :
    (bind q uri entries).lookup p = if q = p then some uri else entries.lookup p := by
  induction entries with
  | nil => exact lookup_cons_pair q uri p []
  | cons entry rest ih =>
    obtain ⟨known, u⟩ := entry
    unfold bind
    split
    · rename_i hknown
      obtain rfl := eq_of_beq hknown
      rw [lookup_cons_pair, lookup_cons_pair]
      split <;> rfl
    · rename_i hne
      rw [lookup_cons_pair, lookup_cons_pair, ih]
      split
      · rename_i hp
        rw [if_neg fun hq => hne (beq_iff_eq.mpr (hp.trans hq.symm))]
      · rfl

/-- A prefix that is bound already keeps its place, and a new one gets the last. -/
theorem map_fst_bind (q uri : String) (entries : List (String × String)) :
    (bind q uri entries).map Prod.fst =
      if (entries.lookup q).isSome then entries.map Prod.fst
      else entries.map Prod.fst ++ [q] := by
  induction entries with
  | nil => simp [bind]
  | cons entry rest ih =>
    obtain ⟨known, u⟩ := entry
    unfold bind
    split
    · rename_i hknown
      obtain rfl := eq_of_beq hknown
      simp
    · rename_i hne
      rw [beq_iff_eq] at hne
      rw [List.map_cons, ih, lookup_cons_pair, if_neg hne]
      split <;> simp

theorem mem_map_fst_iff {β : Type} {entries : List (String × β)} :
    p ∈ entries.map Prod.fst ↔ (entries.lookup p).isSome := by
  induction entries with
  | nil => simp
  | cons entry rest ih =>
    obtain ⟨known, u⟩ := entry
    rw [List.map_cons, List.mem_cons, ih, lookup_cons_pair]
    split
    · rename_i hp
      simp [hp]
    · rename_i hp
      simp [Ne.symm hp]

theorem lookup_eraseP (h : (entries.map Prod.fst).Nodup) (q p : String) :
    (entries.eraseP fun entry => entry.1 == q).lookup p =
      if q = p then none else entries.lookup p := by
  induction entries with
  | nil => simp
  | cons entry rest ih =>
    obtain ⟨known, u⟩ := entry
    obtain ⟨hnew, hrest⟩ := List.nodup_cons.mp h
    by_cases hq : known = q
    · subst hq
      rw [List.eraseP_cons_of_pos (by simp), lookup_cons_pair]
      split
      · rename_i hp
        exact (Option.not_isSome_iff_eq_none.mp (mt mem_map_fst_iff.mpr (hp ▸ hnew)))
      · rfl
    · rw [List.eraseP_cons_of_neg (by simpa using hq), lookup_cons_pair, lookup_cons_pair, ih hrest]
      split
      · rename_i hp
        rw [if_neg fun hk => hq (hp.trans hk.symm)]
      · rfl

end Entries

section Log

variable {log : List Event} {event : Event} {q : String} {i : Nat}

theorem bound?_concat (log : List Event) (event : Event) (q : String) :
    bound? (log ++ [event]) q = if event.qualifier = q then event.uri? else bound? log q := by
  unfold bound?
  rw [List.reverse_append, List.reverse_singleton, List.singleton_append, List.find?_cons]
  by_cases hq : event.qualifier = q
  · simp [hq]
  · simp [hq, beq_eq_false_iff_ne.mpr hq]

theorem BoundSince.lt_length (h : BoundSince log q i) : i < log.length := by
  obtain ⟨before, uri, after, rfl, rfl, -⟩ := h
  simp

theorem BoundSince.isSome (h : BoundSince log q i) : (bound? log q).isSome := by
  obtain ⟨before, uri, after, rfl, -, -, hdropped⟩ := h
  rw [← List.singleton_append, ← List.append_assoc]
  -- no event behind the binding can take it back
  induction after using List.reverseRecOn with
  | nil => simp [bound?_concat, Event.qualifier, Event.uri?]
  | append_singleton after event ih =>
    rw [List.mem_append, not_or, List.mem_singleton] at hdropped
    rw [← List.append_assoc, bound?_concat]
    split
    · rename_i hq
      cases event with
      | bound p u => rfl
      | dropped p => exact absurd (hq ▸ rfl) hdropped.2
    · exact ih hdropped.1

theorem BoundSince.concat (h : BoundSince log q i) (hd : event ≠ .dropped q) :
    BoundSince (log ++ [event]) q i := by
  obtain ⟨before, uri, after, rfl, hi, hb, hdropped⟩ := h
  refine ⟨before, uri, after ++ [event], by simp, hi, hb, ?_⟩
  rw [List.mem_append, List.mem_singleton]
  exact fun hm => hm.elim hdropped (Ne.symm hd)

/-- A further event is the binding looked for only if the prefix was not bound before. -/
theorem boundSince_of_concat (h : BoundSince (log ++ [event]) q i) :
    BoundSince log q i ∨ i = log.length ∧ bound? log q = none := by
  obtain ⟨before, uri, after, he, hi, hb, hdropped⟩ := h
  rcases List.eq_nil_or_concat after with rfl | ⟨after, last, rfl⟩
  · obtain ⟨rfl, -⟩ := List.append_inj' he rfl
    exact .inr ⟨hi.symm, hb⟩
  · rw [List.concat_eq_append] at he hdropped
    have hlog : log ++ [event] = (before ++ .bound q uri :: after) ++ [last] := by simpa using he
    obtain ⟨hlog, -⟩ := List.append_inj' hlog rfl
    exact .inl ⟨before, uri, after, hlog, hi, hb, fun hm => hdropped (List.mem_append_left _ hm)⟩

theorem exists_boundSince (h : (bound? log q).isSome) : ∃ i, BoundSince log q i := by
  induction log using List.reverseRecOn with
  | nil => cases h
  | append_singleton log event ih =>
    by_cases hq : event.qualifier = q
    · rw [bound?_concat, if_pos hq] at h
      cases event with
      | dropped p => cases h
      | bound p uri =>
        obtain rfl : p = q := hq
        cases hb : bound? log p with
        | none => exact ⟨log.length, log, uri, [], rfl, rfl, hb, List.not_mem_nil⟩
        | some u =>
          obtain ⟨i, hi⟩ := ih (by rw [hb]; rfl)
          exact ⟨i, hi.concat (by simp)⟩
    · rw [bound?_concat, if_neg hq] at h
      obtain ⟨i, hi⟩ := ih h
      exact ⟨i, hi.concat fun he => hq (he ▸ rfl)⟩

end Log

structure Records (table : PrefixTable) (log : List Event) : Prop where
  distinct : table.Distinct
  uri?_eq : ∀ q, table.uri? q = bound? log q
  ordered : (table.entries.map Prod.fst).Pairwise fun q p =>
    ∀ i j, BoundSince log q i → BoundSince log p j → i < j

namespace Records

variable {table other : PrefixTable} {log events : List Event} {event : Event} {q uri : String}
  {call : Call}

theorem empty : Records .empty [] := ⟨.empty, fun _ => rfl, .nil⟩

theorem of_entries (h : Records table log) (he : other.entries = table.entries) :
    Records other log where
  distinct := by
    rw [Distinct, he]
    exact h.distinct
  uri?_eq q := by
    rw [uri?, he]
    exact h.uri?_eq q
  ordered := he ▸ h.ordered

theorem mem_iff (h : Records table log) : q ∈ table.entries.map Prod.fst ↔ (bound? log q).isSome :=
  mem_map_fst_iff.trans (by rw [← h.uri?_eq]; rfl)

/-- An event leaves the prefixes that stay bound in the order of their bindings. -/
theorem pairwise_concat (h : Records table log) (event : Event) {qualifiers : List String}
    (hs : qualifiers.Sublist (table.entries.map Prod.fst)) : qualifiers.Pairwise fun q p =>
      ∀ i j, BoundSince (log ++ [event]) q i → BoundSince (log ++ [event]) p j → i < j := by
  have hold : ∀ q ∈ qualifiers, ∀ i, BoundSince (log ++ [event]) q i → BoundSince log q i := by
    intro q hq i hi
    refine (boundSince_of_concat hi).resolve_right fun hnone => ?_
    have hbound := h.mem_iff.mp (hs.subset hq)
    simp [hnone.2] at hbound
  refine (h.ordered.sublist hs).imp_of_mem fun hq hp hlt i j hi hj => ?_
  exact hlt i j (hold _ hq i hi) (hold _ hp j hj)

theorem bound (h : Records table log) (q uri : String) :
    Records (table.register q uri) (log ++ [.bound q uri]) where
  distinct := h.distinct.register
  uri?_eq p := by
    rw [bound?_concat, ← h.uri?_eq]
    exact lookup_bind q uri table.entries p
  ordered := by
    have hold := h.pairwise_concat (.bound q uri) (List.Sublist.refl _)
    have hq : (table.entries.lookup q) = bound? log q := h.uri?_eq q
    rw [register, map_fst_bind, hq]
    split
    · exact hold
    · rename_i hnone
      refine List.pairwise_append.mpr ⟨hold, List.pairwise_singleton _ _, ?_⟩
      intro p hp _ hl i j hi hj
      obtain rfl := List.mem_singleton.mp hl
      have hi := (boundSince_of_concat hi).resolve_right fun hn => by
        simpa [hn.2] using h.mem_iff.mp hp
      have hj := (boundSince_of_concat hj).resolve_left fun hj => hnone hj.isSome
      exact hj.1 ▸ hi.lt_length

theorem dropped (h : Records table log) (q : String) :
    Records (Event.apply (.dropped q) table) (log ++ [.dropped q]) where
  distinct := List.Nodup.sublist (List.eraseP_sublist.map _) h.distinct
  uri?_eq p := by
    rw [bound?_concat, ← h.uri?_eq]
    exact lookup_eraseP h.distinct q p
  ordered := h.pairwise_concat _ (List.eraseP_sublist.map _)

theorem foldl (h : Records table log) (events : List Event) :
    Records (events.foldl (fun table event => event.apply table) table) (log ++ events) := by
  induction events generalizing table log with
  | nil => simpa using h
  | cons event events ih =>
    have hfirst : Records (event.apply table) (log ++ [event]) := by
      cases event with
      | bound q uri => exact h.bound q uri
      | dropped q => exact h.dropped q
    simpa using ih hfirst

theorem foldl_registerDeclared (declared : List Declaration) (table : PrefixTable) :
    declared.foldl registerDeclared table =
      (declaredEvents declared).foldl (fun table event => event.apply table) table := by
  unfold declaredEvents
  induction declared generalizing table with
  | nil => rfl
  | cons d declared ih => cases hq : d.qualifier <;> simp [registerDeclared, hq, ih, Event.apply]

theorem entries_registerDefault (h : Records table log) (mode : Discovery) (name uri : String) :
    (table.registerDefault mode name uri).entries =
      ((defaultEvents log mode name uri).foldl (fun table event => event.apply table)
        table).entries := by
  unfold registerDefault defaultEvents
  cases mode with
  | defaultAs q => rfl
  | off | auxiliary =>
    dsimp only
    rw [← h.uri?_eq]
    change PrefixTable.entries (if (table.uri? name).isSome then _ else _) = _
    cases table.uri? name <;> rfl

/-- What is declared on a root element is registered as it is discovered. -/
theorem entries_discover (h : Records table log) (mode : Discovery) (doc : Document) :
    (table.discover mode doc).entries =
      ((discovered log mode doc).foldl (fun table event => event.apply table) table).entries := by
  unfold discover discovered
  cases doc.rootElement? with
  | none => cases mode <;> rfl
  | some top =>
    have hwritten := h.foldl (declaredEvents (discoverable doc top))
    rw [← foldl_registerDeclared] at hwritten
    cases mode with
    | off => rfl
    | auxiliary | defaultAs =>
      dsimp only
      rw [List.foldl_append, ← foldl_registerDeclared]
      cases (discoverable doc top).find? fun d => d.qualifier.isNone with
      | none => rfl
      | some d => exact hwritten.entries_registerDefault _ _ _

/-- Every call does to the entries what its events say. -/
theorem entries_apply (h : Records table log) (call : Call) : (call.apply table).entries =
    ((call.events log).foldl (fun table event => event.apply table) table).entries := by
  cases call with
  | register q uri => rfl
  | setDefault uri => rfl
  | merge other =>
    refine congrArg entries ?_
    simp [Call.apply, Call.events, merge, List.foldl_map, Event.apply]
  | discover mode doc => exact h.entries_discover mode doc
  | remove q =>
    change (StateT.run (removal q) table).2.entries = table.entries.eraseP fun entry => entry.1 == q
    rw [run_removal, PrefixTable.remove]
    cases hq : table.uri? q with
    | none =>
      refine (List.eraseP_of_forall_not fun entry he hk => ?_).symm
      have hmem : q ∈ table.entries.map Prod.fst := eq_of_beq hk ▸ List.mem_map_of_mem he
      have hbound := mem_map_fst_iff.mp hmem
      simp [show table.entries.lookup q = none from hq] at hbound
    | some uri => rfl

theorem apply (h : Records table log) (call : Call) :
    Records (call.apply table) (log ++ call.events log) :=
  (h.foldl (call.events log)).of_entries (h.entries_apply call)

end Records

theorem records_run (calls : List Call) : Records (run calls) (history calls) := by
  have hrun : ∀ table log, Records table log →
      Records (calls.foldl (fun table call => call.apply table) table)
        (calls.foldl (fun log call => log ++ call.events log) log) := by
    induction calls with
    | nil => exact fun _ _ h => h
    | cons call calls ih => exact fun table log h => ih _ _ (h.apply call)
  exact hrun _ _ .empty

section Answers

variable {table : PrefixTable} {q uri : String}

theorem qualifier?_eq_some : table.qualifier? uri = some q ↔ ∃ before after,
    table.entries = before ++ (q, uri) :: after ∧ ∀ entry ∈ before, entry.2 ≠ uri := by
  unfold qualifier?
  rw [Option.map_eq_some_iff]
  constructor
  · rintro ⟨⟨p, u⟩, hfound, rfl⟩
    obtain ⟨hu, before, after, he, hbefore⟩ := List.find?_eq_some_iff_append.mp hfound
    obtain rfl := eq_of_beq hu
    exact ⟨before, after, he, by simpa using hbefore⟩
  · rintro ⟨before, after, he, hbefore⟩
    refine ⟨(q, uri), List.find?_eq_some_iff_append.mpr ⟨by simp, before, after, he, ?_⟩, rfl⟩
    simpa using hbefore

/-- Among distinct prefixes no entry replaces another. -/
theorem Distinct.bindings_eq_some (h : table.Distinct) :
    table.bindings q = some uri ↔ (q, uri) ∈ table.entries := by
  have hfold : ∀ (entries : List (String × String)) (start : String → Option String),
      (entries.map Prod.fst).Nodup →
      (entries.foldl (fun bound entry q => if q == entry.1 then some entry.2 else bound q) start q =
        some uri ↔ (q, uri) ∈ entries ∨ q ∉ entries.map Prod.fst ∧ start q = some uri) := by
    intro entries
    induction entries with
    | nil => simp
    | cons entry rest ih =>
      intro start hnodup
      obtain ⟨known, u⟩ := entry
      obtain ⟨hnew, hrest⟩ := List.nodup_cons.mp hnodup
      rw [List.foldl_cons, ih _ hrest]
      have hrestmem : (q, uri) ∈ rest → q ∈ rest.map Prod.fst := fun hm => List.mem_map_of_mem hm
      by_cases hq : q = known
      · subst hq
        have hnone : (q, uri) ∉ rest := fun hm => hnew (hrestmem hm)
        simp only [List.map_cons, List.mem_cons, Prod.mk.injEq, beq_self_eq_true, if_true]
        simp [hnone, hnew, eq_comm]
      · simp [hq]
  refine (hfold table.entries _ h).trans ?_
  simp

end Answers

/-- A table is a map that keeps the order of insertion, whatever calls it comes from: a prefix stands
for the URI that it was bound to last, unless it was dropped since; the prefixes stand in the order
in which they were bound first since they were last dropped, each once; a URI leads to the first
entry with it, whose prefix stands for it; removing fails for a prefix that is not bound, and only
then, and passes on the table that it was given if it fails; and the bindings are the entries. -/
theorem run_history (calls : List Call) :
    (run calls).Distinct ∧
    (∀ q, (run calls).uri? q = bound? (history calls) q) ∧
    (∀ q ∈ (run calls).entries.map Prod.fst, ∃ i, BoundSince (history calls) q i) ∧
    ((run calls).entries.map Prod.fst).Pairwise (fun q p => ∀ i j,
      BoundSince (history calls) q i → BoundSince (history calls) p j → i < j) ∧
    (∀ uri q, (run calls).qualifier? uri = some q ↔ ∃ before after,
      (run calls).entries = before ++ (q, uri) :: after ∧ ∀ entry ∈ before, entry.2 ≠ uri) ∧
    (∀ uri q, (run calls).qualifier? uri = some q → (run calls).uri? q = some uri) ∧
    (∀ q uri, (run calls).uri? q = some uri → ∃ left, (run calls).remove q = .ok (uri, left) ∧
      StateT.run (removal q) (run calls) = (.ok uri, left) ∧ run (calls ++ [.remove q]) = left) ∧
    (∀ q, (run calls).uri? q = none → (run calls).remove q = .error (.unknownQualifier q) ∧
      StateT.run (removal q) (run calls) = (.error (.unknownQualifier q), run calls) ∧
      run (calls ++ [.remove q]) = run calls) ∧
    ∀ q uri, (run calls).bindings q = some uri ↔ (q, uri) ∈ (run calls).entries := by
  have hrecords := records_run calls
  have hnext (q) : run (calls ++ [.remove q]) = (StateT.run (removal q) (run calls)).2 := by
    rw [run, List.foldl_append]
    rfl
  refine ⟨hrecords.distinct, hrecords.uri?_eq, fun q hq => exists_boundSince (hrecords.mem_iff.mp hq),
    hrecords.ordered, fun _ _ => qualifier?_eq_some, fun _ _ => hrecords.distinct.uri?_of_qualifier?,
    fun q uri hq => ?_, fun q hq => ?_, fun _ _ => hrecords.distinct.bindings_eq_some⟩
  · rw [hnext, run_removal, PrefixTable.remove, hq]
    exact ⟨_, rfl, rfl, rfl⟩
  · rw [hnext, run_removal, PrefixTable.remove, hq]
    exact ⟨rfl, rfl, rfl⟩

example : (run [.register "p" "u", .register "q" "v", .remove "p", .register "q" "w",
    .register "p" "u"]).entries = [("q", "w"), ("p", "u")] := by decide

end MarkupQuery.PrefixTable
