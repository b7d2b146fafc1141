import Mathlib

/-!
# Order statistics of a list

A quorum rule that takes the element at index {lit}`i` of a list sorted in
increasing order picks a value that at least {lit}`n - i` of the {lit}`n` elements
reach: every element from index {lit}`i` on is at or above it, and sorting only
permutes the list.  The order is any total and transitive relation, as the
{lit}`Less` of a Go {lit}`sort.Interface` is; the fixed-width integers have no
{lit}`LinearOrder` instance.

Main results:

- Definition {lit}`sortAsc`: the list sorted in increasing order, as
  {lit}`sort.Sort` leaves a slice.
- Theorem {lit}`sub_le_countP_sortAsc`: at least {lit}`n - i` elements are at or
  above the element at index {lit}`i` of the sorted list.
-/

namespace Uranus
namespace Lib

variable {α : Type} (le : α → α → Prop) [DecidableRel le]

/-- The list sorted in increasing order. -/
def sortAsc (l : List α) : List α := l.mergeSort (fun a b => decide (le a b))

/-- Sorting permutes the list. -/
theorem sortAsc_perm (l : List α) : (sortAsc le l).Perm l := List.mergeSort_perm _ _

/-- Sorting keeps the length. -/
theorem length_sortAsc (l : List α) : (sortAsc le l).length = l.length :=
  (sortAsc_perm le l).length_eq

section Total

variable {le} (htrans : ∀ a b c, le a b → le b c → le a c) (htotal : ∀ a b, le a b ∨ le b a)
include htrans htotal

/-- For a total and transitive order, the sorted list is in order. -/
theorem pairwise_sortAsc (l : List α) : (sortAsc le l).Pairwise le := by
  have h := List.pairwise_mergeSort
    (fun a b c (hab : decide (le a b) = true) (hbc : decide (le b c) = true) =>
      decide_eq_true (htrans a b c (of_decide_eq_true hab) (of_decide_eq_true hbc)))
    (fun a b => by simpa using htotal a b) l
  exact h.imp fun hab => of_decide_eq_true hab

/-- For an antisymmetric order, a sorted permutation of a list is what {lit}`sortAsc`
returns: the sort of a given list can be computed by checking one candidate. -/
theorem sortAsc_eq_of_perm (hanti : ∀ a b, le a b → le b a → a = b) {l l' : List α}
    (hperm : l.Perm l') (hl' : l'.Pairwise le) : sortAsc le l = l' :=
  ((sortAsc_perm le l).trans hperm).eq_of_pairwise (fun a b _ _ => hanti a b)
    (pairwise_sortAsc htrans htotal l) hl'

omit htrans [DecidableRel le] in
/-- In a list sorted in increasing order, every element from index {lit}`i` on is at
or above the one at {lit}`i`. -/
theorem le_of_mem_drop {l : List α} (hl : l.Pairwise le) {i : Nat} (hi : i < l.length)
    {x : α} (hx : x ∈ l.drop i) : le l[i] x := by
  rw [List.drop_eq_getElem_cons hi] at hx
  have hrest : (l[i] :: l.drop (i + 1)).Pairwise le := by
    rw [← List.drop_eq_getElem_cons hi]
    exact hl.sublist (List.drop_sublist _ _)
  rcases List.mem_cons.mp hx with rfl | hx
  · exact (htotal l[i] l[i]).elim id id
  · exact List.rel_of_pairwise_cons hrest hx

/-- At least {lit}`n - i` of the {lit}`n` elements of a list are at or above the element
at index {lit}`i` of its sorted copy. -/
theorem sub_le_countP_sortAsc (l : List α) {i : Nat} (hi : i < l.length) (d : α) :
    l.length - i ≤ l.countP (fun x => decide (le ((sortAsc le l).getD i d) x)) := by
  have hi' : i < (sortAsc le l).length := by rw [length_sortAsc]; exact hi
  have hget : (sortAsc le l).getD i d = (sortAsc le l)[i] := by
    rw [List.getD_eq_getElem _ _ hi']
  -- the elements from index i on all count, and they are a part of the sorted list
  have hdrop : ((sortAsc le l).drop i).countP (fun x => decide (le ((sortAsc le l).getD i d) x)) =
      ((sortAsc le l).drop i).length := by
    refine List.countP_eq_length.mpr fun x hx => ?_
    rw [hget]
    exact decide_eq_true (le_of_mem_drop htotal (pairwise_sortAsc htrans htotal l) hi' hx)
  calc l.length - i = ((sortAsc le l).drop i).length := by rw [List.length_drop, length_sortAsc]
    _ = ((sortAsc le l).drop i).countP (fun x => decide (le ((sortAsc le l).getD i d) x)) :=
      hdrop.symm
    _ ≤ (sortAsc le l).countP (fun x => decide (le ((sortAsc le l).getD i d) x)) :=
      (List.drop_sublist _ _).countP_le
    _ = l.countP (fun x => decide (le ((sortAsc le l).getD i d) x)) := (sortAsc_perm le l).countP_eq _

end Total

end Lib
end Uranus
