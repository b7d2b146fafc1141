import Mathlib

/-!
# Binary heaps on lists (Go's {lit}`container/heap`)

Go's {lit}`container/heap` keeps a heap in any sequence that offers {lit}`Len`,
{lit}`Less` and {lit}`Swap`, as a complete binary tree in level order: the parent of
index {lit}`j` is {lit}`(j - 1) / 2`.  {lit}`up` swaps an element with its parent while
it is less, {lit}`down` swaps it with its lesser child while that child is less, and
{lit}`Init`, {lit}`Push`, {lit}`Pop`, {lit}`Remove` and {lit}`Fix` are built from
the two.  Here the sequence is a list, {lit}`Less` compares a key in a linear order,
and the operations follow the library's source step by step.

The order is stated edge by edge: {lit}`Le key h p c` says that the element at
{lit}`p` is not greater than the one at {lit}`c`, and {lit}`HeapFrom key h n k` says
this of every edge among the first {lit}`n` elements whose parent is at index
{lit}`k` or later, the invariant of {lit}`Init`'s loop.

Main results:

- Theorems {lit}`downLoop_perm`, {lit}`up_perm`, {lit}`Init_perm`, {lit}`Fix_perm`,
  {lit}`Push_perm` and {lit}`Pop_perm`: the operations only permute the elements.
- Theorem {lit}`downLoop_heapFrom`: {lit}`down` repairs a heap whose only bad edges
  leave the index it starts at.
- Theorems {lit}`Init_isHeap`, {lit}`Fix_set_zero_isHeap` and {lit}`Pop_isHeap`: the
  heap order after {lit}`Init`, after replacing the root and fixing it, and after
  {lit}`Pop`.
- Theorems {lit}`up_heapFrom` and {lit}`fix_heapFrom`: {lit}`up` repairs a heap whose
  only bad edge enters its index, and {lit}`down` then {lit}`up` one whose bad edges
  touch it.
- Theorems {lit}`Push_isHeap` and {lit}`Remove_isHeap`, with {lit}`Remove_perm`: the
  heap order after {lit}`Push` and {lit}`Remove`, and what {lit}`Remove` takes out.
- Theorem {lit}`IsHeap.root_le`: the root of a heap has the least key.
-/

namespace Uranus
namespace Lib
namespace Heap

variable {α β : Type*} [LinearOrder β] (key : α → β)

/-! ## Indices -/

/-- The parent of an index. -/
def parent (j : Nat) : Nat := (j - 1) / 2

/-- A node's parent index is at most the node's own. -/
theorem parent_le (j : Nat) : parent j ≤ j := by
  unfold parent; omega

/-- Every node but the root has its parent strictly before it. -/
theorem parent_lt {j : Nat} (hj : 0 < j) : parent j < j := by
  unfold parent; omega

@[simp] theorem parent_left (i : Nat) : parent (2 * i + 1) = i := by
  unfold parent; omega

@[simp] theorem parent_right (i : Nat) : parent (2 * i + 2) = i := by
  unfold parent; omega

/-- A node whose parent is {lit}`i` is the left or the right child of {lit}`i`. -/
theorem eq_child_of_parent {i j : Nat} (hj : 0 < j) (h : parent j = i) :
    j = 2 * i + 1 ∨ j = 2 * i + 2 := by
  unfold parent at h; omega

/-- A node whose parent is {lit}`i` is at or after the left child of {lit}`i`. -/
theorem le_child_of_parent {i j : Nat} (hj : 0 < j) (h : parent j = i) : 2 * i + 1 ≤ j := by
  unfold parent at h; omega

/-! ## Comparisons -/

/-- {lit}`Less(i, j)`: the element at {lit}`i` has the smaller key.  Go panics out of
range, which the heap functions never reach; it is false here. -/
def less (h : List α) (i j : Nat) : Bool :=
  match h[i]?, h[j]? with
  | some a, some b => decide (key a < key b)
  | _, _ => false

/-- The element at {lit}`p`, if any, is not greater than the one at {lit}`c`. -/
def Le (h : List α) (p c : Nat) : Prop :=
  ∀ a b, h[p]? = some a → h[c]? = some b → key a ≤ key b

/-- {lit}`less` answers true only on two present entries, the first with the smaller key. -/
theorem less_eq_true {h : List α} {i j : Nat} (hl : less key h i j = true) :
    ∃ a b, h[i]? = some a ∧ h[j]? = some b ∧ key a < key b := by
  unfold less at hl
  split at hl
  · next a b ha hb => exact ⟨a, b, ha, hb, of_decide_eq_true hl⟩
  · cases hl

/-- When {lit}`less i j` is false, the element at {lit}`j` is not greater than the one at {lit}`i`. -/
theorem le_of_less_eq_false {h : List α} {i j : Nat} (hl : less key h i j = false) :
    Le key h j i := by
  intro a b ha hb
  unfold less at hl
  rw [hb, ha] at hl
  exact not_lt.mp (of_decide_eq_false hl)

/-- When {lit}`less i j` is true, the element at {lit}`i` is not greater than the one at {lit}`j`. -/
theorem le_of_less_eq_true {h : List α} {i j : Nat} (hl : less key h i j = true) :
    Le key h i j := by
  obtain ⟨a, b, ha, hb, hab⟩ := less_eq_true key hl
  intro a' b' ha' hb'
  rw [ha] at ha'
  rw [hb] at hb'
  cases ha'
  cases hb'
  exact hab.le

/-- {lit}`Le` is reflexive. -/
theorem Le.refl (h : List α) (i : Nat) : Le key h i i := by
  intro a b ha hb
  rw [ha] at hb
  cases hb
  exact le_rfl

/-- {lit}`Le` is transitive through an index inside the list. -/
theorem Le.trans {h : List α} {i j k : Nat} (hj : j < h.length) (hij : Le key h i j)
    (hjk : Le key h j k) : Le key h i k := by
  intro a c ha hc
  have hb : h[j]? = some h[j] := List.getElem?_eq_getElem hj
  exact (hij a _ ha hb).trans (hjk _ c hb hc)

/-! ## Swapping -/

/-- Reading a swapped list is reading the original at the swapped index. -/
theorem getElem?_swap (h : List α) {i j : Nat} (hi : i < h.length) (hj : j < h.length)
    (k : Nat) : (h.swap i j)[k]? = h[Equiv.swap i j k]? := by
  rw [List.swap_eq_of_lt hi hj, Equiv.swap_apply_def]
  simp only [List.getElem?_set, List.length_set]
  by_cases hki : k = i
  · subst hki
    by_cases hkj : k = j
    · subst hkj
      simp [hi]
    · simp [Ne.symm hkj, hi, List.getElem?_eq_getElem hj]
  · by_cases hkj : k = j
    · subst hkj
      simp [hki, hj, List.getElem?_eq_getElem hi]
    · simp [hki, hkj, Ne.symm hki, Ne.symm hkj]

/-- {lit}`Le` on a swapped list is {lit}`Le` on the original at the swapped indices. -/
theorem Le_swap {h : List α} {i j : Nat} (hi : i < h.length) (hj : j < h.length) (p c : Nat) :
    Le key (h.swap i j) p c ↔ Le key h (Equiv.swap i j p) (Equiv.swap i j c) := by
  simp only [Le, getElem?_swap h hi hj]

/-! ## The operations -/

/-- {lit}`up`: the element at {lit}`j` moves up while it is less than its parent. -/
def up (h : List α) (j : Nat) : List α :=
  if _hij : parent j = j then h
  else if less key h j (parent j) then up (h.swap (parent j) j) (parent j)
  else h
termination_by j
decreasing_by exact lt_of_le_of_ne (parent_le j) _hij

/-- The child {lit}`down` swaps with: the right one if it is less than the left one. -/
def downChild (h : List α) (n i : Nat) : Nat :=
  if 2 * i + 2 < n ∧ less key h (2 * i + 2) (2 * i + 1) then 2 * i + 2 else 2 * i + 1

/-- The loop of {lit}`down` within the first {lit}`n` elements: the element at
{lit}`i` moves down while its lesser child is less; the index it stops at is returned
with the list. -/
def downLoop (h : List α) (n i : Nat) : List α × Nat :=
  if n ≤ 2 * i + 1 then (h, i)
  else if less key h (downChild key h n i) i then
    downLoop (h.swap i (downChild key h n i)) n (downChild key h n i)
  else (h, i)
termination_by n - i
decreasing_by
  unfold downChild
  split <;> omega

/-- {lit}`down`: whether the element moved, and the list. -/
def down (h : List α) (i0 n : Nat) : Bool × List α :=
  let r := downLoop key h n i0
  (decide (i0 < r.2), r.1)

/-- {lit}`heap.Init`: {lit}`down` from {lit}`n / 2 - 1` back to {lit}`0`. -/
def Init (h : List α) : List α :=
  let n := h.length
  (List.range (n / 2)).reverse.foldl (fun h i => (down key h i n).2) h

/-- {lit}`heap.Push`, with the {lit}`Push` of the interface appending. -/
def Push (h : List α) (x : α) : List α := up key (h ++ [x]) h.length

/-- {lit}`heap.Pop`, with the {lit}`Pop` of the interface taking the last element:
the root and the rest.  Go indexes an empty heap out of range. -/
def Pop (h : List α) : Option (α × List α) :=
  if h = [] then none
  else
    let n := h.length - 1
    let h := (down key (h.swap 0 n) 0 n).2
    h.getLast?.map fun x => (x, h.dropLast)

/-- {lit}`heap.Remove` of the element at {lit}`i`. -/
def Remove (h : List α) (i : Nat) : Option (α × List α) :=
  if h = [] then none
  else
    let n := h.length - 1
    let h := if n ≠ i then
        let r := down key (h.swap i n) i n
        if !r.1 then up key r.2 i else r.2
      else h
    h.getLast?.map fun x => (x, h.dropLast)

/-- {lit}`heap.Fix` at {lit}`i`, after the element there changed. -/
def Fix (h : List α) (i : Nat) : List α :=
  let r := down key h i h.length
  if !r.1 then up key r.2 i else r.2

/-! ## Permutations -/

/-- Sifting up only permutes the heap. -/
theorem up_perm (h : List α) (j : Nat) : (up key h j).Perm h := by
  induction h, j using up.induct key with
  | case1 h j hij => rw [up, dif_pos hij]
  | case2 h j hij hl ih =>
    rw [up, dif_neg hij, if_pos hl]
    exact ih.trans (List.swap_perm h _ _)
  | case3 h j hij hl =>
    rw [up, dif_neg hij, if_neg hl]

/-- The loop of sifting down only permutes the heap. -/
theorem downLoop_perm (h : List α) (n i : Nat) : (downLoop key h n i).1.Perm h := by
  induction h, i using downLoop.induct key n with
  | case1 h i hn => rw [downLoop, if_pos hn]
  | case2 h i hn hl ih =>
    rw [downLoop, if_neg hn, if_pos hl]
    exact ih.trans (List.swap_perm h _ _)
  | case3 h i hn hl =>
    rw [downLoop, if_neg hn, if_neg hl]

/-- Sifting down only permutes the heap. -/
theorem down_perm (h : List α) (i n : Nat) : (down key h i n).2.Perm h :=
  downLoop_perm key h n i

/-- Any sequence of sift-downs only permutes the heap. -/
theorem foldl_down_perm (n : Nat) (is : List Nat) (h : List α) :
    (is.foldl (fun h i => (down key h i n).2) h).Perm h := by
  induction is generalizing h with
  | nil => rfl
  | cons i is ih =>
    rw [List.foldl_cons]
    exact (ih _).trans (down_perm key h i n)

/-- {lit}`heap.Init` only permutes the list. -/
theorem Init_perm (h : List α) : (Init key h).Perm h :=
  foldl_down_perm key _ _ h

/-- {lit}`heap.Fix` only permutes the heap. -/
theorem Fix_perm (h : List α) (i : Nat) : (Fix key h i).Perm h := by
  dsimp only [Fix]
  split
  · exact (up_perm key _ i).trans (down_perm key h i _)
  · exact down_perm key h i _

/-! ## What a swap leaves alone -/

/-- A swap leaves every other index as it was. -/
theorem getElem?_swap_of_ne (h : List α) {i j k : Nat} (hki : k ≠ i) (hkj : k ≠ j) :
    (h.swap i j)[k]? = h[k]? := by
  by_cases hi : i < h.length
  · by_cases hj : j < h.length
    · rw [getElem?_swap h hi hj, Equiv.swap_apply_of_ne_of_ne hki hkj]
    · rw [List.swap_eq_of_ge_right (Nat.le_of_not_lt hj)]
  · rw [List.swap_eq_of_ge_left (Nat.le_of_not_lt hi)]

@[simp] theorem up_zero (h : List α) : up key h 0 = h := by
  rw [up, dif_pos (by simp [parent])]

/-- Sifting down ends at or below the index it starts from. -/
theorem le_downLoop_snd (h : List α) (n i : Nat) : i ≤ (downLoop key h n i).2 := by
  induction h, i using downLoop.induct key n with
  | case1 h i hn => rw [downLoop, if_pos hn]
  | case2 h i hn hl ih =>
    rw [downLoop, if_neg hn, if_pos hl]
    have : i < downChild key h n i := by unfold downChild; split <;> omega
    omega
  | case3 h i hn hl => rw [downLoop, if_neg hn, if_neg hl]

/-- {lit}`down` only swaps at its index or later, and within the first {lit}`n}`. -/
theorem getElem?_downLoop (h : List α) (n i : Nat) {k : Nat} (hk : k < i ∨ n ≤ k) :
    (downLoop key h n i).1[k]? = h[k]? := by
  induction h, i using downLoop.induct key n with
  | case1 h i hn => rw [downLoop, if_pos hn]
  | case2 h i hn hl ih =>
    rw [downLoop, if_neg hn, if_pos hl]
    have hd : i < downChild key h n i ∧ downChild key h n i < n := by
      unfold downChild; split <;> omega
    rw [ih (by omega), getElem?_swap_of_ne h (by omega) (by omega)]
  | case3 h i hn hl => rw [downLoop, if_neg hn, if_neg hl]

/-- A {lit}`down` that ends where it started changed nothing. -/
theorem downLoop_eq_of_snd_eq (h : List α) (n i : Nat) (he : (downLoop key h n i).2 = i) :
    (downLoop key h n i).1 = h := by
  rw [downLoop] at he ⊢
  split
  · rfl
  · next hn =>
    rw [if_neg hn] at he
    split
    · next hl =>
      rw [if_pos hl] at he
      have hle := le_downLoop_snd key (h.swap i (downChild key h n i)) n (downChild key h n i)
      have : i < downChild key h n i := by unfold downChild; split <;> omega
      omega
    · rfl

/-! ## The heap order -/

/-- Every edge among the first {lit}`n` elements whose parent is at {lit}`k` or later
is ordered. -/
def HeapFrom (h : List α) (n k : Nat) : Prop :=
  ∀ c, c < n → 0 < c → k ≤ parent c → Le key h (parent c) c

/-- The heap order of {lit}`container/heap`: no element is less than its parent. -/
def IsHeap (h : List α) : Prop := HeapFrom key h h.length 0

/-- What {lit}`down` at {lit}`i` needs: the edges at {lit}`k` or later are ordered,
except those leaving {lit}`i`, and a child that comes up to {lit}`i` fits under the
parent of {lit}`i`. -/
structure DownReady (h : List α) (n k i : Nat) : Prop where
  ordered : ∀ c, c < n → 0 < c → k ≤ parent c → parent c ≠ i → Le key h (parent c) c
  fits : ∀ c, c < n → 0 < c → parent c = i → 0 < i → k ≤ parent i → Le key h (parent i) c

section Child

variable {key} {h : List α} {n i : Nat}

/-- The child sifting down picks has the node as its parent. -/
theorem downChild_parent : parent (downChild key h n i) = i := by
  unfold downChild; split <;> simp

/-- When a node has a child inside the heap, the child sifting down picks lies after the node and inside the heap. -/
theorem downChild_bounds (hi : 2 * i + 1 < n) :
    i < downChild key h n i ∧ downChild key h n i < n := by
  unfold downChild; split <;> omega

/-- The chosen child is not greater than the other child. -/
theorem downChild_le {c : Nat} (hc : c < n) (hc0 : 0 < c) (hpc : parent c = i) :
    Le key h (downChild key h n i) c := by
  rcases eq_child_of_parent hc0 hpc with rfl | rfl
  · unfold downChild
    split
    · next hr => exact le_of_less_eq_true key hr.2
    · exact Le.refl key h _
  · unfold downChild
    split
    · exact Le.refl key h _
    · next hr =>
      have hl : less key h (2 * i + 2) (2 * i + 1) = false := by
        simpa [hc] using hr
      exact le_of_less_eq_false key hl

end Child

/-- One swap of {lit}`down` moves the bad edges one level down. -/
theorem DownReady.swap {h : List α} {n k i : Nat} (hr : DownReady key h n k i)
    (hn : n ≤ h.length) (hki : k ≤ i) (hi : 2 * i + 1 < n)
    (hl : less key h (downChild key h n i) i = true) :
    DownReady key (h.swap i (downChild key h n i)) n k (downChild key h n i) := by
  set d := downChild key h n i with hd
  have ⟨hid, hdn⟩ : i < d ∧ d < n := downChild_bounds hi
  have hpd : parent d = i := downChild_parent
  have hswap := Le_swap key (h := h) (by omega : i < h.length) (by omega : d < h.length)
  constructor
  · intro c hc hc0 hkc hpc
    rw [hswap]
    by_cases hcd : c = d
    · -- the element that went down sits under the child that came up
      subst hcd
      rw [hpd, Equiv.swap_apply_left, Equiv.swap_apply_right]
      exact le_of_less_eq_true key hl
    by_cases hci : c = i
    · -- the child that came up fits under the parent of i
      subst hci
      have hpi : parent c < c := parent_lt hc0
      rw [Equiv.swap_apply_of_ne_of_ne (by omega) (by omega), Equiv.swap_apply_left]
      exact hr.fits d hdn (by omega) hpd hc0 hkc
    rw [Equiv.swap_apply_of_ne_of_ne hci hcd]
    by_cases hpci : parent c = i
    · -- the other child of i stays under the lesser one
      rw [hpci, Equiv.swap_apply_left]
      exact downChild_le hc hc0 hpci
    · rw [Equiv.swap_apply_of_ne_of_ne hpci hpc]
      exact hr.ordered c hc hc0 hkc hpci
  · intro c hc hc0 hpc _ _
    have hdc : d < c := hpc ▸ parent_lt hc0
    rw [hswap, hpd, Equiv.swap_apply_left, Equiv.swap_apply_of_ne_of_ne (by omega) (by omega)]
    exact hpc ▸ hr.ordered c hc hc0 (by omega) (by omega)

/-- {lit}`down` repairs a heap whose only bad edges leave the index it starts at. -/
theorem downLoop_heapFrom {h : List α} {n k i : Nat} (hn : n ≤ h.length) (hki : k ≤ i)
    (hr : DownReady key h n k i) : HeapFrom key (downLoop key h n i).1 n k := by
  induction h, i using downLoop.induct key n with
  | case1 h i hn' =>
    -- i has no child among the first n
    rw [downLoop, if_pos hn']
    intro c hc hc0 hkc
    by_cases hpc : parent c = i
    · have := le_child_of_parent hc0 hpc
      omega
    · exact hr.ordered c hc hc0 hkc hpc
  | case2 h i hn' hl ih =>
    rw [downLoop, if_neg hn', if_pos hl]
    have ⟨hid, _⟩ : i < downChild key h n i ∧ downChild key h n i < n :=
      downChild_bounds (Nat.lt_of_not_le hn')
    exact ih (by simpa using hn) (by omega) (hr.swap key hn hki (Nat.lt_of_not_le hn') hl)
  | case3 h i hn' hl =>
    -- the element is not greater than its lesser child, so not than either
    rw [downLoop, if_neg hn', if_neg hl]
    show HeapFrom key h n k
    intro c hc hc0 hkc
    by_cases hpc : parent c = i
    · have hi : 2 * i + 1 < n := Nat.lt_of_not_le hn'
      have ⟨_, hdn⟩ : i < downChild key h n i ∧ downChild key h n i < n := downChild_bounds hi
      rw [hpc]
      exact Le.trans key (by omega) (le_of_less_eq_false key (by simpa using hl))
        (downChild_le hc hc0 hpc)
    · exact hr.ordered c hc hc0 hkc hpc

/-! ## Init, Fix and Pop keep the order -/

/-- Sifting down keeps the length. -/
theorem length_downLoop (h : List α) (n i : Nat) : (downLoop key h n i).1.length = h.length :=
  (downLoop_perm key h n i).length_eq

/-- The loop of {lit}`Init`: after {lit}`down` at {lit}`m - 1}`, ..., {lit}`0`, a heap
from {lit}`m` on is a heap. -/
theorem foldl_down_heapFrom (m : Nat) {h : List α} (hn : h.length = n)
    (hh : HeapFrom key h n m) :
    HeapFrom key ((List.range m).reverse.foldl (fun h i => (down key h i n).2) h) n 0 := by
  induction m generalizing h with
  | zero => simpa using hh
  | succ m ih =>
    rw [List.range_succ, List.reverse_append, List.reverse_singleton, List.singleton_append,
      List.foldl_cons]
    apply ih (by simp [down, length_downLoop, hn])
    apply downLoop_heapFrom key (by omega) le_rfl
    constructor
    · intro c hc hc0 hkc hpc
      exact hh c hc hc0 (by omega)
    · intro c _ _ _ hm hkm
      have := parent_lt hm
      omega

/-- {lit}`heap.Init` establishes the heap order. -/
theorem Init_isHeap (h : List α) : IsHeap key (Init key h) := by
  unfold IsHeap
  rw [(Init_perm key h).length_eq]
  apply foldl_down_heapFrom key _ rfl
  -- no edge among the first n elements has its parent at n / 2 or later
  intro c hc _ hkc
  unfold parent at hkc
  omega

/-- Replacing the root of a heap and fixing it there gives a heap. -/
theorem Fix_set_zero_isHeap {h : List α} (hh : IsHeap key h) (x : α) :
    IsHeap key (Fix key (h.set 0 x) 0) := by
  have hready : DownReady key (h.set 0 x) (h.set 0 x).length 0 0 := by
    constructor
    · intro c hc hc0 _ hpc a b ha hb
      rw [List.getElem?_set, if_neg (Ne.symm hpc)] at ha
      rw [List.getElem?_set, if_neg (by omega)] at hb
      exact hh c (by simpa using hc) hc0 (Nat.zero_le _) a b ha hb
    · intro _ _ _ _ h0
      omega
  have hd := downLoop_heapFrom key le_rfl le_rfl hready
  unfold IsHeap Fix down
  dsimp only
  split <;> simpa [length_downLoop] using hd

/-- Moving a list's last element to its front permutes it. -/
theorem cons_dropLast_perm {l : List α} {x : α} (hx : l.getLast? = some x) :
    (x :: l.dropLast).Perm l := by
  have hl : l ≠ [] := by
    rintro rfl
    simp at hx
  have hlast : l.getLast hl = x := Option.some.inj ((List.getLast?_eq_some_getLast hl).symm.trans hx)
  rw [← hlast]
  have hp := (List.perm_append_singleton (l.getLast hl) l.dropLast).symm
  rwa [List.dropLast_concat_getLast hl] at hp

/-- A list that is a heap on all but its last element is a heap without it. -/
theorem isHeap_dropLast {l : List α} (hl : HeapFrom key l (l.length - 1) 0) :
    IsHeap key l.dropLast := by
  intro c hc hc0 _ a b ha hb
  have hcn : c < l.length - 1 := by simpa using hc
  have hpc := parent_lt hc0
  rw [List.getElem?_dropLast, if_pos (by omega)] at ha
  rw [List.getElem?_dropLast, if_pos hcn] at hb
  exact hl c hcn hc0 (Nat.zero_le _) a b ha hb

/-- After the last element took the root's place and went down, the root is last. -/
theorem getLast?_downLoop_swap {h : List α} (hne : h ≠ []) :
    (downLoop key (h.swap 0 (h.length - 1)) (h.length - 1) 0).1.getLast? = some (h.head hne) := by
  have hlen : 0 < h.length := List.length_pos_of_ne_nil hne
  rw [List.getLast?_eq_getElem?, length_downLoop, List.length_swap,
    getElem?_downLoop key _ _ _ (Or.inr le_rfl),
    getElem?_swap h hlen (by omega), Equiv.swap_apply_right, List.head_eq_getElem,
    List.getElem?_eq_getElem hlen]

/-- {lit}`Pop` of a non-empty list: the root, and what {lit}`down` makes of the rest
after the last element took the root's place. -/
theorem Pop_eq {h : List α} (hne : h ≠ []) :
    Pop key h = some (h.head hne,
      (downLoop key (h.swap 0 (h.length - 1)) (h.length - 1) 0).1.dropLast) := by
  simp only [Pop, if_neg hne, down, getLast?_downLoop_swap key hne, Option.map_some]

/-- Only a non-empty heap pops. -/
theorem ne_nil_of_Pop {h : List α} {x : α} {h' : List α} (hp : Pop key h = some (x, h')) :
    h ≠ [] := by
  rintro rfl
  simp [Pop] at hp

/-- {lit}`Pop` returns the root. -/
theorem Pop_fst {h : List α} {x : α} {h' : List α} (hp : Pop key h = some (x, h')) :
    h.head? = some x := by
  have hne := ne_nil_of_Pop key hp
  rw [Pop_eq key hne] at hp
  obtain ⟨rfl, -⟩ := Prod.mk.inj (Option.some.inj hp)
  exact List.head?_eq_some_head hne

/-- The popped element and the remaining heap are a permutation of the heap. -/
theorem Pop_perm {h : List α} {x : α} {h' : List α} (hp : Pop key h = some (x, h')) :
    (x :: h').Perm h := by
  have hne := ne_nil_of_Pop key hp
  rw [Pop_eq key hne] at hp
  obtain ⟨rfl, rfl⟩ := Prod.mk.inj (Option.some.inj hp)
  exact (cons_dropLast_perm (getLast?_downLoop_swap key hne)).trans
    ((downLoop_perm key _ _ _).trans (List.swap_perm h _ _))

/-- A pop shortens the heap. -/
theorem length_lt_of_Pop {h : List α} {x : α} {h' : List α} (hp : Pop key h = some (x, h')) :
    h'.length < h.length := by
  have := (Pop_perm key hp).length_eq
  rw [List.length_cons] at this
  omega

/-- What remains after {lit}`Pop` of a heap is a heap. -/
theorem Pop_isHeap {h : List α} {x : α} {h' : List α} (hh : IsHeap key h)
    (hp : Pop key h = some (x, h')) : IsHeap key h' := by
  have hne := ne_nil_of_Pop key hp
  have hlen : 0 < h.length := List.length_pos_of_ne_nil hne
  rw [Pop_eq key hne] at hp
  obtain ⟨-, rfl⟩ := Prod.mk.inj (Option.some.inj hp)
  -- among the first n elements the swap only changed the root
  have hready : DownReady key (h.swap 0 (h.length - 1)) (h.length - 1) 0 0 := by
    constructor
    · intro c hc hc0 _ hpc
      have hpcc := parent_lt hc0
      rw [Le_swap key hlen (by omega), Equiv.swap_apply_of_ne_of_ne hpc (by omega),
        Equiv.swap_apply_of_ne_of_ne (by omega) (by omega)]
      exact hh c (by omega) hc0 (Nat.zero_le _)
    · intro _ _ _ _ h0
      omega
  have hd := downLoop_heapFrom key (by simp) le_rfl hready
  exact isHeap_dropLast key (by simpa [length_downLoop] using hd)

/-- The root of a heap has the least key. -/
theorem IsHeap.root_le {h : List α} (hh : IsHeap key h) {r : α} (hr : h.head? = some r)
    {x : α} (hx : x ∈ h) : key r ≤ key x := by
  obtain ⟨j, hj, rfl⟩ := List.getElem_of_mem hx
  have hr0 : h[0]? = some r := by rwa [List.head?_eq_getElem?] at hr
  -- along the path from the root every edge is ordered
  suffices Le key h 0 j from this r _ hr0 (List.getElem?_eq_getElem hj)
  clear hx
  induction j using Nat.strong_induction_on with
  | h j ih =>
    rcases Nat.eq_zero_or_pos j with rfl | hj0
    · exact Le.refl key h 0
    · have hpj := parent_lt hj0
      exact Le.trans key (by omega) (ih (parent j) hpj (by omega))
        (hh j hj hj0 (Nat.zero_le _))

/-! ## Up, Push and Remove keep the order -/

/-- Sifting up keeps the length. -/
theorem length_up (h : List α) (j : Nat) : (up key h j).length = h.length :=
  (up_perm key h j).length_eq

/-- {lit}`up` only swaps at its index or above it. -/
theorem getElem?_up (h : List α) (j : Nat) {k : Nat} (hk : j < k) : (up key h j)[k]? = h[k]? := by
  induction h, j using up.induct key with
  | case1 h j hij => rw [up, dif_pos hij]
  | case2 h j hij hl ih =>
    have hpj := parent_le j
    rw [up, dif_neg hij, if_pos hl, ih (by omega), getElem?_swap_of_ne h (by omega) (by omega)]
  | case3 h j hij hl => rw [up, dif_neg hij, if_neg hl]

/-- What {lit}`up` at {lit}`j` needs among the first {lit}`n` elements: every edge is
ordered but the one into {lit}`j`, and the children of {lit}`j` fit under its parent. -/
structure UpReady (h : List α) (n j : Nat) : Prop where
  ordered : ∀ c, c < n → 0 < c → c ≠ j → Le key h (parent c) c
  grand : ∀ c, c < n → 0 < c → parent c = j → 0 < j → Le key h (parent j) c

/-- A node that is not its own parent is not the root. -/
theorem pos_of_parent_ne {j : Nat} (h : parent j ≠ j) : 0 < j := by
  unfold parent at h; omega

/-- One swap of {lit}`up` moves the bad edge one level up. -/
theorem UpReady.swap {h : List α} {n j : Nat} (hr : UpReady key h n j) (hn : n ≤ h.length)
    (hj : j < n) (hj0 : 0 < j) (hl : less key h j (parent j) = true) :
    UpReady key (h.swap (parent j) j) n (parent j) := by
  have hpj : parent j < j := parent_lt hj0
  have hswap := Le_swap key (h := h) (by omega : parent j < h.length) (by omega : j < h.length)
  -- the element that comes up is less than the one that goes down
  have hjp : Le key h j (parent j) := le_of_less_eq_true key hl
  constructor
  · intro c hc hc0 hcp
    rw [hswap]
    by_cases hcj : c = j
    · rw [hcj, Equiv.swap_apply_left, Equiv.swap_apply_right]
      exact hjp
    rw [Equiv.swap_apply_of_ne_of_ne hcp hcj]
    by_cases hpc : parent c = parent j
    · -- a sibling of j stays under the element that came up
      have hsib := hr.ordered c hc hc0 hcj
      rw [hpc] at hsib
      rw [hpc, Equiv.swap_apply_left]
      exact Le.trans key (by omega) hjp hsib
    by_cases hpcj : parent c = j
    · -- a child of j sits under the element that went down
      rw [hpcj, Equiv.swap_apply_right]
      exact hr.grand c hc hc0 hpcj hj0
    rw [Equiv.swap_apply_of_ne_of_ne hpc hpcj]
    exact hr.ordered c hc hc0 hcj
  · intro c hc hc0 hpc hp0
    have hpp : parent (parent j) < parent j := parent_lt hp0
    rw [hswap, Equiv.swap_apply_of_ne_of_ne (by omega) (by omega)]
    have hedge : Le key h (parent (parent j)) (parent j) :=
      hr.ordered (parent j) (by omega) hp0 (by omega)
    by_cases hcj : c = j
    · rw [hcj, Equiv.swap_apply_right]
      exact hedge
    · have hcp : c ≠ parent j := by have := parent_lt hc0; omega
      have hsib := hr.ordered c hc hc0 hcj
      rw [hpc] at hsib
      rw [Equiv.swap_apply_of_ne_of_ne hcp hcj]
      exact Le.trans key (by omega) hedge hsib

/-- {lit}`up` repairs a heap whose only bad edge enters the index it starts at. -/
theorem up_heapFrom {h : List α} {n j : Nat} (hn : n ≤ h.length) (hj : j < n)
    (hr : UpReady key h n j) : HeapFrom key (up key h j) n 0 := by
  induction h, j using up.induct key with
  | case1 h j hij =>
    -- j is the root, which no edge enters
    rw [up, dif_pos hij]
    intro c hc hc0 _
    have hj0 : j = 0 := by unfold parent at hij; omega
    exact hr.ordered c hc hc0 (by omega)
  | case2 h j hij hl ih =>
    rw [up, dif_neg hij, if_pos hl]
    have hj0 := pos_of_parent_ne hij
    have := parent_lt hj0
    exact ih (by simpa using hn) (by omega) (hr.swap key hn hj hj0 hl)
  | case3 h j hij hl =>
    -- the element is not less than its parent, so the edge into it is ordered too
    rw [up, dif_neg hij, if_neg hl]
    intro c hc hc0 _
    by_cases hcj : c = j
    · rw [hcj]
      exact le_of_less_eq_false key (by simpa using hl)
    · exact hr.ordered c hc hc0 hcj

/-- In a heap {lit}`up` changes nothing. -/
theorem up_eq_of_heapFrom {h : List α} {n j : Nat} (hh : HeapFrom key h n 0) (hj : j < n) :
    up key h j = h := by
  rw [up]
  split
  · rfl
  · next hij =>
    have hle := hh j hj (pos_of_parent_ne hij) (Nat.zero_le _)
    rw [if_neg]
    intro hl
    obtain ⟨a, b, ha, hb, hab⟩ := less_eq_true key hl
    exact absurd (hle b a hb ha) (not_le.mpr hab)

/-- {lit}`Le` between two indices inside the list ignores what is appended. -/
theorem Le_append {h l : List α} {p c : Nat} (hp : p < h.length) (hc : c < h.length) :
    Le key (h ++ l) p c ↔ Le key h p c := by
  simp only [Le, List.getElem?_append_left hp, List.getElem?_append_left hc]

/-- {lit}`Push` keeps the heap. -/
theorem Push_isHeap {h : List α} (hh : IsHeap key h) (x : α) : IsHeap key (Push key h x) := by
  -- the new last element is the only one that may be out of order
  have hready : UpReady key (h ++ [x]) (h.length + 1) h.length := by
    constructor
    · intro c hc hc0 hcn
      have hpc := parent_lt hc0
      rw [Le_append key (by omega) (by omega)]
      exact hh c (by omega) hc0 (Nat.zero_le _)
    · intro c hc hc0 hpc _
      have := parent_lt hc0
      omega
  have hd := up_heapFrom key (by simp) (by omega) hready
  unfold IsHeap Push
  rw [length_up]
  simpa using hd

/-- {lit}`heap.Push` appends the element and only permutes the result. -/
theorem Push_perm (h : List α) (x : α) : (Push key h x).Perm (h ++ [x]) :=
  up_perm key _ _

/-- {lit}`Le` between two indices depends only on the elements there. -/
theorem Le_congr {g h : List α} {p c : Nat} (hp : g[p]? = h[p]?) (hc : g[c]? = h[c]?) :
    Le key g p c ↔ Le key h p c := by
  simp only [Le, hp, hc]

/-- What {lit}`down` then {lit}`up` at {lit}`i` need among the first {lit}`n` elements:
the edges that do not touch {lit}`i` are ordered, and the children of {lit}`i` fit
under its parent. -/
structure FixReady (h : List α) (n i : Nat) : Prop where
  apart : ∀ c, c < n → 0 < c → c ≠ i → parent c ≠ i → Le key h (parent c) c
  grand : ∀ c, c < n → 0 < c → parent c = i → 0 < i → Le key h (parent i) c

/-- {lit}`down` leaves an element less than each of its children where it is. -/
theorem downLoop_of_below {h : List α} {n i : Nat} {b : α} (hb : h[i]? = some b)
    (hbelow : ∀ c, c < n → 0 < c → parent c = i → ∀ e, h[c]? = some e → key b < key e) :
    downLoop key h n i = (h, i) := by
  rw [downLoop]
  split
  · rfl
  · next hn' =>
    rw [if_neg]
    intro hl
    obtain ⟨e, b', he, hb', hlt⟩ := less_eq_true key hl
    rw [hb] at hb'
    cases hb'
    have ⟨hid, hdn⟩ : i < downChild key h n i ∧ downChild key h n i < n :=
      downChild_bounds (Nat.lt_of_not_le hn')
    exact absurd hlt (not_lt.mpr (hbelow _ hdn (by omega) downChild_parent e he).le)

/-- The step of {lit}`Fix` and {lit}`Remove`: {lit}`down` at {lit}`i`, and {lit}`up` if
the element did not move, repair a heap whose only bad edges touch {lit}`i`. -/
theorem fix_heapFrom {h : List α} {n i : Nat} (hn : n ≤ h.length) (hi : i < n)
    (hr : FixReady key h n i) :
    HeapFrom key (if !(down key h i n).1 then up key (down key h i n).2 i
      else (down key h i n).2) n 0 := by
  by_cases hfit : Le key h (parent i) i
  · -- the element fits under its parent (at the root it does), so down repairs the rest
    have hready : DownReady key h n 0 i := by
      constructor
      · intro c hc hc0 _ hpc
        by_cases hci : c = i
        · rw [hci]; exact hfit
        · exact hr.apart c hc hc0 hci hpc
      · intro c hc hc0 hpc hi0 _
        exact hr.grand c hc hc0 hpc hi0
    have hd := downLoop_heapFrom key hn (Nat.zero_le i) hready
    unfold down
    dsimp only
    split
    · next hstay =>
      have hle := le_downLoop_snd key h n i
      have heq : (downLoop key h n i).2 = i := by simp at hstay; omega
      rw [downLoop_eq_of_snd_eq key h n i heq] at hd ⊢
      rwa [up_eq_of_heapFrom key hd hi]
    · exact hd
  · -- the element is less than its parent, hence than its children: it goes up
    simp only [Le, not_forall] at hfit
    obtain ⟨a, b, ha, hb, hab⟩ := hfit
    have hi0 : 0 < i := by
      rcases Nat.eq_zero_or_pos i with rfl | hi0
      · rw [show parent 0 = 0 by simp [parent], hb] at ha
        cases ha
        exact absurd le_rfl hab
      · exact hi0
    have hbelow : ∀ c, c < n → 0 < c → parent c = i → ∀ e, h[c]? = some e → key b < key e :=
      fun c hc hc0 hpc e he => lt_of_lt_of_le (lt_of_not_ge hab) (hr.grand c hc hc0 hpc hi0 a e ha he)
    have hstay := downLoop_of_below key hb hbelow
    simp only [down, hstay, lt_irrefl, decide_false, Bool.not_false, if_true]
    apply up_heapFrom key hn hi
    constructor
    · intro c hc hc0 hci
      by_cases hpc : parent c = i
      · rw [hpc]
        intro b' e hb' he
        rw [hb] at hb'
        cases hb'
        exact (hbelow c hc hc0 hpc e he).le
      · exact hr.apart c hc hc0 hci hpc
    · exact hr.grand

/-- The list {lit}`Remove` takes its last element off: the last element took the place
of the one at {lit}`i` and went down, or else up. -/
def removeFix (h : List α) (i : Nat) : List α :=
  let n := h.length - 1
  if n ≠ i then
    let r := down key (h.swap i n) i n
    if !r.1 then up key r.2 i else r.2
  else h

/-- {lit}`heap.Remove` on a non-empty heap: the entry moved to the end by the fix-up, and the rest. -/
theorem Remove_eq {h : List α} (hne : h ≠ []) (i : Nat) :
    Remove key h i = (removeFix key h i).getLast?.map fun x => (x, (removeFix key h i).dropLast) := by
  simp only [Remove, if_neg hne, removeFix]

/-- The swap and fix-up of {lit}`heap.Remove` only permute the heap. -/
theorem removeFix_perm (h : List α) (i : Nat) : (removeFix key h i).Perm h := by
  unfold removeFix
  dsimp only
  split
  · have hs := List.swap_perm h i (h.length - 1)
    unfold down
    dsimp only
    split
    · exact (up_perm key _ i).trans ((downLoop_perm key _ _ _).trans hs)
    · exact (downLoop_perm key _ _ _).trans hs
  · rfl

/-- The swap and fix-up of {lit}`heap.Remove` keep the length. -/
theorem length_removeFix (h : List α) (i : Nat) : (removeFix key h i).length = h.length :=
  (removeFix_perm key h i).length_eq

/-- The element {lit}`Remove` took out is last before the final pop. -/
theorem getLast?_removeFix {h : List α} {i : Nat} (hi : i < h.length) :
    (removeFix key h i).getLast? = h[i]? := by
  rw [List.getLast?_eq_getElem?, length_removeFix]
  unfold removeFix
  dsimp only
  split
  · next hni =>
    have hlast : (h.swap i (h.length - 1))[h.length - 1]? = h[i]? := by
      rw [getElem?_swap h hi (by omega), Equiv.swap_apply_right]
    unfold down
    dsimp only
    split
    · rw [getElem?_up key _ _ (by omega), getElem?_downLoop key _ _ _ (Or.inr le_rfl), hlast]
    · rw [getElem?_downLoop key _ _ _ (Or.inr le_rfl), hlast]
  · next hni => rw [show h.length - 1 = i by omega]

/-- Of a heap, the list before the final pop is a heap on all but its last element. -/
theorem removeFix_heapFrom {h : List α} (hh : IsHeap key h) {i : Nat} (hi : i < h.length) :
    HeapFrom key (removeFix key h i) (h.length - 1) 0 := by
  unfold removeFix
  dsimp only
  split
  · next hni =>
    have hin : i < h.length - 1 := by omega
    have hswap : ∀ k, k ≠ i → k ≠ h.length - 1 → (h.swap i (h.length - 1))[k]? = h[k]? :=
      fun k hki hkn => getElem?_swap_of_ne h hki hkn
    -- the swap moved the last element to i: only the edges at i can be out of order
    apply fix_heapFrom key (by simp) hin
    constructor
    · intro c hc hc0 hci hpc
      have := parent_lt hc0
      rw [Le_congr key (hswap _ hpc (by omega)) (hswap _ hci (by omega))]
      exact hh c (by omega) hc0 (Nat.zero_le _)
    · intro c hc hc0 hpc hi0
      have := parent_lt hi0
      have := parent_lt hc0
      rw [Le_congr key (hswap _ (by omega) (by omega)) (hswap _ (by omega) (by omega))]
      exact Le.trans key (by omega) (hh i (by omega) hi0 (Nat.zero_le _))
        (hpc ▸ hh c (by omega) hc0 (Nat.zero_le _))
  · intro c hc hc0 _
    exact hh c (by omega) hc0 (Nat.zero_le _)

/-- {lit}`Remove` at an index in range returns the element there. -/
theorem Remove_eq_some {h : List α} {i : Nat} (hi : i < h.length) :
    Remove key h i = some (h[i], (removeFix key h i).dropLast) := by
  have hne : h ≠ [] := List.ne_nil_of_length_pos (by omega)
  rw [Remove_eq key hne, getLast?_removeFix key hi, List.getElem?_eq_getElem hi, Option.map_some]

/-- The removed entry and the remaining heap are a permutation of the heap. -/
theorem Remove_perm {h : List α} {i : Nat} (hi : i < h.length) :
    (h[i] :: (removeFix key h i).dropLast).Perm h := by
  have hlast : (removeFix key h i).getLast? = some h[i] := by
    rw [getLast?_removeFix key hi, List.getElem?_eq_getElem hi]
  exact (cons_dropLast_perm hlast).trans (removeFix_perm key h i)

/-- What remains after {lit}`Remove` of a heap is a heap. -/
theorem Remove_isHeap {h : List α} (hh : IsHeap key h) {i : Nat} (hi : i < h.length) :
    IsHeap key (removeFix key h i).dropLast :=
  isHeap_dropLast key (by simpa [length_removeFix] using removeFix_heapFrom key hh hi)


end Heap
end Lib
end Uranus
