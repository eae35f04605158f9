import MarkupQuery.Proofs.Query.Axes
import MarkupQuery.Proofs.Tree.Indexed

namespace MarkupQuery.Query

open MarkupQuery.Tree

section Comparison

variable {s : Indexed} {a b : Site}

/-- A comparison tells whether the first site precedes the second, as long as positions fit into 32
bits. -/
theorem compareSites_eq (h : s.Fresh) (hrank : ∀ id, s.document.rank id ≤ Document.detachedRank) :
    (compareSites s a b).1 =
      if (Ranked.of s.document).before a b then .lt else if a = b then .eq else .gt := by
  have hposition : ∀ t : Indexed, t.Fresh → t.document = s.document → ∀ id,
      (t.position id).1 = (Ranked.of s.document).rank id := by
    intro t ht hd id
    rw [Indexed.position_eq ht, hd, Ranked.rank_eq]
    exact Nat.min_eq_left (hrank id)
  have hnat : ∀ i j : Nat, compare i j = if i < j then .lt else if i = j then .eq else .gt :=
    fun _ _ => rfl
  have hindex : ∀ i j : Option Nat, compare i j =
      if indexBefore i j then .lt else if i = j then .eq else .gt := by
    intro i j
    cases i <;> cases j <;> simp [indexBefore, compare, compareOfLessAndEq]
  obtain ⟨id, i⟩ := a
  obtain ⟨other, j⟩ := b
  rw [compareSites]
  dsimp only
  rw [hposition s h rfl, hposition (s.position id).2 (Indexed.fresh_position h _) rfl, hindex,
    hnat, hnat, Ranked.before]
  dsimp only
  have hne : (Ranked.of s.document).rank id ≠ (Ranked.of s.document).rank other → id ≠ other :=
    mt (congrArg _)
  generalize (Ranked.of s.document).rank id = x at hne ⊢
  generalize (Ranked.of s.document).rank other = y at hne ⊢
  rcases Nat.lt_trichotomy x y with hx | rfl | hx
  · simp [hx]
  · rcases Nat.lt_trichotomy id other with hid | rfl | hid
    · simp [hid]
    · simp
    · simp [hid.ne', Nat.lt_asymm hid]
  · simp [hne hx.ne', hx.ne', Nat.lt_asymm hx]

end Comparison

/-- Positions are never stale. Whatever was called on a document, in any order, and whatever was asked
in between: the position that is answered for an attached node is its place in the walk of the document
as it is, which lists each attached node once, a node before what is below it and that child by child,
so the document node has position 0; that of a detached node is the last one. So attached nodes and
their attributes are compared as they stand in document order. -/
theorem positions_never_stale {s : Indexed} (h : s.Reachable) (hsize : s.document.size ≤ 0xFFFFFFFF) :
    (s.document.subtree Document.root).Nodup ∧
    (∀ id, id ∈ s.document.subtree Document.root ↔ s.document.isAttached id) ∧
    (∀ id, s.document.subtree id =
      id :: (s.document.children id).flatMap s.document.subtree) ∧
    (∀ id before after, s.document.subtree Document.root = before ++ id :: after →
      (s.position id).1 = before.length) ∧
    (s.position Document.root).1 = 0 ∧
    (∀ id, s.document.isAttached id = false → (s.position id).1 = 0xFFFFFFFF) ∧
    ∀ before a after, Site.all s.document = before ++ a :: after →
      (∀ b ∈ before, (compareSites s b a).1 = .lt) ∧ (compareSites s a a).1 = .eq ∧
        ∀ b ∈ after, (compareSites s b a).1 = .gt := by
  have hforest := h.document.forest
  have hrank := hforest.rank_le hsize
  have hattached : ∀ id, id ∈ s.document.subtree Document.root ↔ s.document.isAttached id :=
    fun id => hforest.mem_subtree.trans hforest.isAttached_iff.symm
  have hposition : ∀ id, (s.position id).1 = s.document.rank id := fun id =>
    (Indexed.position_eq h.fresh id).trans (Nat.min_eq_left (hrank id))
  refine ⟨hforest.nodup_subtree _, hattached, hforest.subtree_eq, fun id before after hs => ?_, ?_,
    fun id hid => ?_, fun before a after hs => ?_⟩
  · exact (hposition id).trans (hforest.rank_eq hs)
  · have hroot : s.document.subtree Document.root = [] ++ Document.root :: _ := hforest.subtree_eq _
    exact (hposition _).trans (hforest.rank_eq hroot)
  · refine (hposition id).trans (rank_of_not_mem fun hm => ?_)
    simp [(hattached id).mp hm] at hid
  · -- a comparison sees what the walk of the whole document sees
    have horder : (Ranked.of s.document).InOrder (Site.all s.document) := Site.inOrder_all hforest
    rw [hs] at horder
    obtain ⟨-, hafter, hbefore⟩ := List.pairwise_append.mp horder
    have hirrefl : ∀ b, (Ranked.of s.document).before b b ≠ true := Ranked.precedes_irrefl _
    refine ⟨fun b hb => ?_, ?_, fun b hb => ?_⟩
    · rw [compareSites_eq h.fresh hrank]
      exact if_pos (hbefore b hb a List.mem_cons_self)
    · rw [compareSites_eq h.fresh hrank, if_neg (hirrefl a), if_pos rfl]
    · have hab := (List.pairwise_cons.mp hafter).1 b hb
      have hba : (Ranked.of s.document).before b a ≠ true := fun hba => hirrefl a (hab.trans hba)
      rw [compareSites_eq h.fresh hrank, if_neg hba, if_neg]
      rintro rfl
      exact hirrefl b hab

def askedBetween : Indexed :=
  let nested : Indexed :=
    ((((({ document := .empty } : Indexed).call (.create (.element { name := "a" }))).2.call
      (.create (.element { name := "b" }))).2.call (.append 0 1)).2.call (.append 1 2)).2
  ((nested.position 2).2.call (.insertBefore 1 2)).2

theorem reachable_askedBetween : askedBetween.Reachable := by
  refine .call (.position ?_ 2) _ (by simp)
  refine .call ?_ _ (by simp)
  refine .call ?_ _ (by simp)
  refine .call ?_ _ (by simp)
  exact .call .empty _ (by simp)

/-- The positions are those after the move. -/
theorem positions_never_stale_askedBetween :
    askedBetween.Reachable ∧ askedBetween.document.size ≤ 0xFFFFFFFF ∧
    (askedBetween.position 2).1 = 1 ∧ (askedBetween.position 1).1 = 2 ∧
    (compareSites askedBetween (.node 2) (.node 1)).1 = .lt := by
  have hsize : askedBetween.document.size ≤ 0xFFFFFFFF := by decide
  obtain ⟨-, -, -, hposition, -, -, hcompare⟩ := positions_never_stale reachable_askedBetween hsize
  have hbefore : Site.node 2 ∈ [Site.node 0, .node 2] := by simp
  refine ⟨reachable_askedBetween, hsize, hposition 2 [0] [1] (by decide), ?_, ?_⟩
  · exact hposition 1 [0, 2] [] (by decide)
  · exact (hcompare [.node 0, .node 2] (.node 1) [] (by decide)).1 (.node 2) hbefore

end MarkupQuery.Query
