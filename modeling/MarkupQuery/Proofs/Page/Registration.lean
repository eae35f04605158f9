import Mathlib.Data.List.Nodup
import MarkupQuery.Page.PrefixTable

namespace MarkupQuery.PrefixTable

open MarkupQuery.Tree

variable {table other : PrefixTable} {qualifier uri : String} {entries : List (String × String)}

def Distinct (table : PrefixTable) : Prop := (table.entries.map Prod.fst).Nodup

theorem mem_map_bind (qualifier uri : String) (entries : List (String × String)) (q : String) :
    q ∈ (bind qualifier uri entries).map Prod.fst ↔ q = qualifier ∨ q ∈ entries.map Prod.fst := by
  induction entries with
  | nil => simp [bind]
  | cons entry rest ih =>
    obtain ⟨known, u⟩ := entry
    unfold bind
    split
    · rename_i hknown
      obtain rfl := eq_of_beq hknown
      simp
    · rw [List.map_cons, List.mem_cons, ih, List.map_cons, List.mem_cons]
      exact or_left_comm

theorem nodup_bind (h : (entries.map Prod.fst).Nodup) :
    ((bind qualifier uri entries).map Prod.fst).Nodup := by
  induction entries with
  | nil => simp [bind]
  | cons entry rest ih =>
    obtain ⟨known, u⟩ := entry
    obtain ⟨hnew, hrest⟩ := List.nodup_cons.mp h
    unfold bind
    split
    · exact h
    · rename_i hne
      refine List.nodup_cons.mpr ⟨fun hk => ?_, ih hrest⟩
      rcases (mem_map_bind qualifier uri rest known).mp hk with rfl | hk
      · exact hne (beq_self_eq_true known)
      · exact hnew hk

theorem lookup_of_mem {β : Type} {entries : List (String × β)} {key : String} {value : β}
    (h : (entries.map Prod.fst).Nodup) (hm : (key, value) ∈ entries) :
    entries.lookup key = some value := by
  induction entries with
  | nil => cases hm
  | cons entry rest ih =>
    obtain ⟨hnew, hrest⟩ := List.nodup_cons.mp h
    rcases List.mem_cons.mp hm with rfl | hm
    · exact List.lookup_cons_self
    · have hne : (key == entry.1) = false := by
        refine beq_eq_false_iff_ne.mpr fun he => hnew ?_
        exact he ▸ List.mem_map.mpr ⟨_, hm, rfl⟩
      rw [List.lookup_cons, hne]
      exact ih hrest hm

/-- A prefix that stands for a namespace is one of the table. -/
theorem mem_of_uri? (h : table.uri? qualifier = some uri) :
    qualifier ∈ table.entries.map Prod.fst := by
  obtain ⟨before, after, he, -⟩ := List.lookup_eq_some_iff.mp h
  simp [he]

/-- Registering the entries of a table leaves the default namespace alone. -/
theorem defaultNamespace_merge (table other : PrefixTable) :
    (table.merge other).defaultNamespace = table.defaultNamespace := by
  unfold PrefixTable.merge
  induction other.entries generalizing table with
  | nil => rfl
  | cons entry rest ih => exact ih _

namespace Distinct

theorem empty : PrefixTable.empty.Distinct := List.nodup_nil

/-- The first prefix for a namespace stands for it. -/
theorem uri?_of_qualifier? (h : table.Distinct) (hq : table.qualifier? uri = some qualifier) :
    table.uri? qualifier = some uri := by
  obtain ⟨entry, hfound, rfl⟩ := Option.map_eq_some_iff.mp hq
  have huri := List.find?_some hfound
  rw [beq_iff_eq] at huri
  exact lookup_of_mem h (huri ▸ List.mem_of_find?_eq_some hfound)

theorem register (h : table.Distinct) : (table.register qualifier uri).Distinct := nodup_bind h

theorem merge (h : table.Distinct) : (table.merge other).Distinct := by
  unfold PrefixTable.merge
  induction other.entries generalizing table with
  | nil => exact h
  | cons entry rest ih => exact ih h.register

theorem registerDefault (h : table.Distinct) (mode : Discovery) (name uri : String) :
    (table.registerDefault mode name uri).Distinct := by
  have hsame : Distinct { table with defaultNamespace := some uri } := h
  unfold PrefixTable.registerDefault
  cases mode with
  | defaultAs qualifier => exact hsame.register
  | off | auxiliary =>
    dsimp only
    split
    · exact hsame
    · exact hsame.register

theorem registerDeclared (h : table.Distinct) (d : Declaration) :
    (table.registerDeclared d).Distinct := by
  unfold PrefixTable.registerDeclared
  split
  · exact h.register
  · exact h

theorem discover (h : table.Distinct) (mode : Discovery) (doc : Document) :
    (table.discover mode doc).Distinct := by
  have hdeclared : ∀ declared : List Declaration,
      (declared.foldl PrefixTable.registerDeclared table).Distinct := by
    intro declared
    induction declared generalizing table with
    | nil => exact h
    | cons d declared ih => exact ih (h.registerDeclared d)
  unfold PrefixTable.discover
  split
  · exact h
  · exact h
  · dsimp only
    split
    · exact (hdeclared _).registerDefault _ _ _
    · exact hdeclared _

theorem remove (h : table.Distinct) (hr : table.remove qualifier = .ok (uri, other)) :
    other.Distinct := by
  unfold PrefixTable.remove at hr
  split at hr
  · simp at hr
  · simp only [Except.ok.injEq, Prod.mk.injEq] at hr
    obtain ⟨-, rfl⟩ := hr
    exact List.Nodup.sublist (List.eraseP_sublist.map _) h

end Distinct

end MarkupQuery.PrefixTable
