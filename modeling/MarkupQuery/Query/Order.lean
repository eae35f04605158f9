import MarkupQuery.Query.Site
import MarkupQuery.Tree.Indexed

namespace MarkupQuery.Query

open MarkupQuery.Tree

structure Ranked where
  document : Document
  ranks : Array Nat := document.ranks
  ranks_eq : ranks = document.ranks := by rfl

def Ranked.of (document : Document) : Ranked := { document }

def Ranked.rank (source : Ranked) (id : NodeId) : Nat :=
  source.ranks.getD id Document.detachedRank

theorem Ranked.rank_eq (source : Ranked) (id : NodeId) :
    source.rank id = source.document.rank id := by
  simp [Ranked.rank, Document.rank, source.ranks_eq]

/-- Compares indices, a node coming before its attributes. -/
def indexBefore : Option Nat → Option Nat → Bool
  | _, none => false
  | none, some _ => true
  | some i, some j => i < j

/-- Whether `a` comes strictly before `b` in document order: the attributes of an element come after
it and before its children. Nodes that are not attached come last, in the order of creation. -/
def Ranked.before (source : Ranked) (a b : Site) : Bool :=
  let left := source.rank a.id
  let right := source.rank b.id
  left < right ||
    (left == right && (a.id < b.id || (a.id == b.id && indexBefore a.index b.index)))

def compareSites (s : Indexed) (a b : Site) : Ordering × Indexed :=
  let (left, s) := s.position a.id
  let (right, s) := s.position b.id
  ((compare left right).then ((compare a.id b.id).then (compare a.index b.index)), s)

def Ranked.mergeOne (source : Ranked) (a : Site) (more : List Site → List Site) :
    List Site → List Site
  | [] => a :: more []
  | b :: bs =>
    if source.before a b then a :: more (b :: bs)
    else if a = b then a :: more bs
    else b :: source.mergeOne a more bs

def Ranked.mergeTwo (source : Ranked) : List Site → List Site → List Site
  | [] => id
  | a :: rest => source.mergeOne a (source.mergeTwo rest)

/-- Lists in document order, with gaps. The list at each place was made from twice as many sites as
the one before. -/
abbrev Runs := List (Option (List Site))

/-- Adds a run at the first place. If that is taken, the two make a run for the next place. -/
def Ranked.addRun (source : Ranked) (run : List Site) : Runs → Runs
  | [] => [some run]
  | none :: runs => some run :: runs
  | some other :: runs => none :: source.addRun (source.mergeTwo other run) runs

def Ranked.ordered (source : Ranked) (sites : List Site) : List Site :=
  let runs := sites.foldl (fun runs site => source.addRun [site] runs) []
  runs.foldl (fun merged run => source.mergeTwo (run.getD []) merged) []

def Ranked.first? (source : Ranked) (sites : List Site) : Option Site :=
  (source.ordered sites).head?

theorem Ranked.mem_mergeOne {source : Ranked} {a : Site} {more : List Site → List Site}
    {rest : List Site} (h : ∀ s bs, s ∈ more bs ↔ s ∈ rest ∨ s ∈ bs) (s : Site) (bs : List Site) :
    s ∈ source.mergeOne a more bs ↔ s = a ∨ s ∈ rest ∨ s ∈ bs := by
  induction bs with
  | nil => simp [mergeOne, h]
  | cons b bs ih =>
    simp only [mergeOne]
    split
    · simp [h]
    · split
      · rename_i hab
        subst hab
        simp only [List.mem_cons, h]
        grind
      · simp only [List.mem_cons, ih]
        grind

theorem Ranked.mem_mergeTwo {source : Ranked} (s : Site) (as bs : List Site) :
    s ∈ source.mergeTwo as bs ↔ s ∈ as ∨ s ∈ bs := by
  induction as generalizing s bs with
  | nil => simp [mergeTwo]
  | cons a rest ih => simp [mergeTwo, mem_mergeOne ih, or_assoc]

theorem Ranked.mem_addRun {source : Ranked} (s : Site) (run : List Site) (runs : Runs) :
    (∃ r ∈ source.addRun run runs, s ∈ r.getD []) ↔ s ∈ run ∨ ∃ r ∈ runs, s ∈ r.getD [] := by
  induction runs generalizing run with
  | nil => simp [addRun]
  | cons r runs ih =>
    cases r with
    | none => simp [addRun]
    | some other => simp [addRun, ih, mem_mergeTwo, or_assoc, or_left_comm]

theorem Ranked.mem_ordered {source : Ranked} (s : Site) (sites : List Site) :
    s ∈ source.ordered sites ↔ s ∈ sites := by
  have runs : ∀ (sites : List Site) (runs : Runs),
      (∃ r ∈ sites.foldl (fun runs site => source.addRun [site] runs) runs, s ∈ r.getD []) ↔
        s ∈ sites ∨ ∃ r ∈ runs, s ∈ r.getD [] := by
    intro sites
    induction sites with
    | nil => simp
    | cons site rest ih =>
      intro runs
      simp [ih, mem_addRun, or_assoc, or_left_comm]
  have merged : ∀ (runs : Runs) (done : List Site),
      s ∈ runs.foldl (fun merged run => source.mergeTwo (run.getD []) merged) done ↔
        s ∈ done ∨ ∃ r ∈ runs, s ∈ r.getD [] := by
    intro runs
    induction runs with
    | nil => simp
    | cons r rest ih =>
      intro done
      simp [ih, mem_mergeTwo, or_assoc, or_left_comm]
  simp [ordered, merged, runs]

end MarkupQuery.Query
