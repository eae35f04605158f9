import MarkupQuery.Proofs.Tree.Preorder
import MarkupQuery.Query.Order
import Mathlib.Data.List.Sort

namespace MarkupQuery.Query

open MarkupQuery.Tree

namespace Ranked

variable {source : Ranked} {a b c : Site}

def Precedes (source : Ranked) (a b : Site) : Prop := source.before a b = true

abbrev InOrder (source : Ranked) (sites : List Site) : Prop := sites.Pairwise source.Precedes

theorem precedes_iff : source.Precedes a b ↔ source.rank a.id < source.rank b.id ∨
    (source.rank a.id = source.rank b.id ∧
      (a.id < b.id ∨ (a.id = b.id ∧ indexBefore a.index b.index = true))) := by
  simp [Precedes, before]

theorem indexBefore_irrefl (i : Option Nat) : indexBefore i i = false := by
  cases i <;> simp [indexBefore]

theorem indexBefore_trans {i j k : Option Nat} (h : indexBefore i j = true)
    (h' : indexBefore j k = true) : indexBefore i k = true := by
  cases i <;> cases j <;> cases k <;> simp_all [indexBefore]
  exact Nat.lt_trans h h'

theorem indexBefore_total (i j : Option Nat) :
    indexBefore i j = true ∨ i = j ∨ indexBefore j i = true := by
  cases i <;> cases j <;> simp [indexBefore]
  exact Nat.lt_trichotomy _ _

theorem precedes_irrefl (source : Ranked) (a : Site) : ¬ source.Precedes a a := by
  simp [precedes_iff, indexBefore_irrefl]

theorem Precedes.trans (h : source.Precedes a b) (h' : source.Precedes b c) :
    source.Precedes a c := by
  rw [precedes_iff] at *
  rcases h with h | ⟨hr, h⟩ <;> rcases h' with h' | ⟨hr', h'⟩
  · exact .inl (h.trans h')
  · exact .inl (hr' ▸ h)
  · exact .inl (hr ▸ h')
  · refine .inr ⟨hr.trans hr', ?_⟩
    rcases h with h | ⟨hid, h⟩ <;> rcases h' with h' | ⟨hid', h'⟩
    · exact .inl (Nat.lt_trans h h')
    · exact .inl (hid' ▸ h)
    · exact .inl (hid ▸ h')
    · exact .inr ⟨hid.trans hid', indexBefore_trans h h'⟩

theorem precedes_total (source : Ranked) (a b : Site) :
    source.Precedes a b ∨ a = b ∨ source.Precedes b a := by
  simp only [precedes_iff]
  rcases Nat.lt_trichotomy (source.rank a.id) (source.rank b.id) with hr | hr | hr
  · exact .inl (.inl hr)
  · rcases Nat.lt_trichotomy a.id b.id with hid | hid | hid
    · exact .inl (.inr ⟨hr, .inl hid⟩)
    · rcases indexBefore_total a.index b.index with hi | hi | hi
      · exact .inl (.inr ⟨hr, .inr ⟨hid, hi⟩⟩)
      · exact .inr (.inl (by cases a; cases b; simp_all))
      · exact .inr (.inr (.inr ⟨hr.symm, .inr ⟨hid.symm, hi⟩⟩))
    · exact .inr (.inr (.inr ⟨hr.symm, .inl hid⟩))
  · exact .inr (.inr (.inl hr))

instance : Std.Irrefl source.Precedes := ⟨precedes_irrefl source⟩

instance : Std.Antisymm source.Precedes :=
  ⟨fun a _ h h' => absurd (h.trans h') (precedes_irrefl source a)⟩

theorem inOrder_mergeOne {more : List Site → List Site} {rest : List Site}
    (hmem : ∀ s bs, s ∈ more bs ↔ s ∈ rest ∨ s ∈ bs)
    (hmore : ∀ bs, source.InOrder bs → source.InOrder (more bs))
    (ha : ∀ s ∈ rest, source.Precedes a s) {bs : List Site} (hb : source.InOrder bs) :
    source.InOrder (source.mergeOne a more bs) := by
  induction bs with
  | nil =>
    refine .cons (fun s hs => ?_) (hmore [] .nil)
    exact ha s (by simpa [hmem] using hs)
  | cons b bs ih =>
    obtain ⟨hfirst, hrest⟩ := List.pairwise_cons.mp hb
    rw [mergeOne]
    split
    · rename_i hab
      refine .cons (fun s hs => ?_) (hmore _ hb)
      rcases (hmem s _).mp hs with hs | hs
      · exact ha s hs
      · rcases List.mem_cons.mp hs with rfl | hs
        · exact hab
        · exact Precedes.trans hab (hfirst s hs)
    · -- equal sites are merged; otherwise `b` comes first, as the order is total
      split
      · rename_i hab
        subst hab
        refine .cons (fun s hs => ?_) (hmore _ hrest)
        rcases (hmem s _).mp hs with hs | hs
        · exact ha s hs
        · exact hfirst s hs
      · rename_i hnot hne
        have hba : source.Precedes b a :=
          ((precedes_total source a b).resolve_left hnot).resolve_left hne
        refine .cons (fun s hs => ?_) (ih hrest)
        rcases (mem_mergeOne hmem s bs).mp hs with rfl | hs | hs
        · exact hba
        · exact hba.trans (ha s hs)
        · exact hfirst s hs

theorem inOrder_mergeTwo {as bs : List Site} (ha : source.InOrder as) (hb : source.InOrder bs) :
    source.InOrder (source.mergeTwo as bs) := by
  induction as generalizing bs with
  | nil => exact hb
  | cons a rest ih =>
    obtain ⟨hfirst, hrest⟩ := List.pairwise_cons.mp ha
    exact inOrder_mergeOne (fun s bs => mem_mergeTwo s rest bs) (fun _ => ih hrest) hfirst hb

theorem inOrder_addRun {run : List Site} {runs : Runs} (h : source.InOrder run)
    (hr : ∀ r ∈ runs, source.InOrder (r.getD [])) :
    ∀ r ∈ source.addRun run runs, source.InOrder (r.getD []) := by
  induction runs generalizing run with
  | nil => simpa [addRun] using h
  | cons r runs ih =>
    obtain ⟨hfirst, hrest⟩ := List.forall_mem_cons.mp hr
    cases r with
    | none => exact List.forall_mem_cons.mpr ⟨h, hrest⟩
    | some other => exact List.forall_mem_cons.mpr ⟨.nil, ih (inOrder_mergeTwo hfirst h) hrest⟩

/-- `ordered` puts sites into document order. -/
theorem inOrder_ordered (source : Ranked) (sites : List Site) :
    source.InOrder (source.ordered sites) := by
  have hruns : ∀ (sites : List Site) (runs : Runs), (∀ r ∈ runs, source.InOrder (r.getD [])) →
      ∀ r ∈ sites.foldl (fun runs site => source.addRun [site] runs) runs,
        source.InOrder (r.getD []) := by
    intro sites
    induction sites with
    | nil => exact fun _ hr => hr
    | cons site rest ih => exact fun runs hr => ih _ (inOrder_addRun (by simp) hr)
  have hmerged : ∀ (runs : Runs) (done : List Site), (∀ r ∈ runs, source.InOrder (r.getD [])) →
      source.InOrder done →
      source.InOrder (runs.foldl (fun merged run => source.mergeTwo (run.getD []) merged) done) := by
    intro runs
    induction runs with
    | nil => exact fun _ _ hd => hd
    | cons r rest ih =>
      intro done hr hd
      obtain ⟨hfirst, hrest⟩ := List.forall_mem_cons.mp hr
      exact ih _ hrest (inOrder_mergeTwo hfirst hd)
  exact hmerged _ [] (hruns sites [] (by simp)) .nil

/-- Sorting changes nothing in a list that is in document order. -/
theorem ordered_eq_self {sites : List Site} (h : source.InOrder sites) :
    source.ordered sites = sites :=
  (inOrder_ordered source sites).eq_of_mem_iff h fun s => mem_ordered s sites

/-- What is in document order and among `all`, which is, too, can be got by leaving sites out. -/
theorem sublist_of_inOrder {sites all : List Site} (h : source.InOrder sites)
    (ha : source.InOrder all) (hs : sites ⊆ all) : sites.Sublist all :=
  List.sublist_of_subperm_of_pairwise (h.nodup.subperm hs) h ha

end Ranked

end MarkupQuery.Query
