import Mathlib

/-!
# Lists sorted strictly by a key

A heap of nonces, and a cache of transactions sorted by nonce, are lists in which a
key strictly increases.  In such a list the elements whose key is below a bound are
a prefix, and the first {lit}`n` elements are those with fewer than {lit}`n` elements
of smaller key: the facts that slicing the front or the back of a sorted list keeps
exactly the elements it should.

Main results:

- Theorem {lit}`drop_countP_lt`: dropping as many elements as are below a bound leaves
  those that are not.
- Theorem {lit}`mem_take_iff_countP_lt`: the first {lit}`n` elements are those with fewer
  than {lit}`n` elements below them.
- Theorem {lit}`pairwise_lt_of_le`: a list sorted by a key with no key twice is sorted
  strictly.
-/

namespace Uranus
namespace Lib

variable {α β : Type*} [LinearOrder β] {f : α → β}

/-- In a list sorted strictly by {lit}`f`, the elements below a bound come first. -/
theorem filter_lt_append_filter_not_lt {l : List α} (hl : l.Pairwise fun a b => f a < f b)
    (t : β) : l.filter (fun x => f x < t) ++ l.filter (fun x => ¬ f x < t) = l := by
  induction l with
  | nil => rfl
  | cons y l ih =>
    obtain ⟨hy, hl⟩ := List.pairwise_cons.mp hl
    by_cases hyt : f y < t
    · rw [List.filter_cons_of_pos (by simpa using hyt), List.filter_cons_of_neg (by simpa using hyt),
        List.cons_append, ih hl]
    · -- every later element is above y, so none of them is below the bound either
      have hnone : l.filter (fun x => f x < t) = [] :=
        List.filter_eq_nil_iff.mpr fun x hx => by
          simp only [decide_eq_true_eq]
          exact fun hxt => hyt (lt_trans (hy x hx) hxt)
      have hall : l.filter (fun x => ¬ f x < t) = l :=
        List.filter_eq_self.mpr fun x hx => by
          simp only [decide_eq_true_eq]
          exact fun hxt => hyt (lt_trans (hy x hx) hxt)
      rw [List.filter_cons_of_neg (by simpa using hyt), List.filter_cons_of_pos (by simpa using hyt),
        hnone, hall, List.nil_append]

/-- In a list sorted by a key, dropping the elements below a bound leaves those at or
above it. -/
theorem drop_countP_lt {l : List α} (hl : l.Pairwise fun a b => f a < f b) (t : β) :
    l.drop (l.countP fun x => f x < t) = l.filter fun x => ¬ f x < t := by
  have hd : ((l.filter fun x => f x < t) ++ l.filter fun x => ¬ f x < t).drop
      (l.filter fun x => f x < t).length = l.filter fun x => ¬ f x < t := List.drop_left
  rw [filter_lt_append_filter_not_lt hl t] at hd
  rwa [List.countP_eq_length_filter]

/-- The first {lit}`n` elements of a list sorted strictly by {lit}`f` are those with
fewer than {lit}`n` elements of smaller key. -/
theorem mem_take_iff_countP_lt {l : List α} (hl : l.Pairwise fun a b => f a < f b)
    {n : Nat} {x : α} : x ∈ l.take n ↔ x ∈ l ∧ l.countP (fun y => f y < f x) < n := by
  induction l generalizing n with
  | nil => simp
  | cons y l ih =>
    obtain ⟨hy, hl⟩ := List.pairwise_cons.mp hl
    cases n with
    | zero => simp
    | succ n =>
      rw [List.take_succ_cons, List.mem_cons, List.mem_cons, List.countP_cons, ih hl]
      by_cases hxy : x = y
      · -- no element after y has a smaller key
        subst hxy
        have hzero : l.countP (fun z => f z < f x) = 0 :=
          List.countP_eq_zero.mpr fun z hz => by
            simpa using (hy z hz).le
        simp [hzero]
      · constructor
        · rintro (h | ⟨hx, hc⟩)
          · exact absurd h hxy
          · have := hy x hx
            simp only [this, decide_true, if_true]
            exact ⟨.inr hx, by omega⟩
        · rintro ⟨h | hx, hc⟩
          · exact absurd h hxy
          · have := hy x hx
            simp only [this, decide_true, if_true] at hc
            exact .inr ⟨hx, by omega⟩

/-- A list sorted by a key with no key twice is sorted strictly. -/
theorem pairwise_lt_of_le {l : List α} (hle : l.Pairwise fun a b => f a ≤ f b)
    (hn : (l.map f).Nodup) : l.Pairwise fun a b => f a < f b := by
  have hne : l.Pairwise fun a b => f a ≠ f b := List.pairwise_map.mp hn
  exact (hle.and hne).imp fun h => lt_of_le_of_ne h.1 h.2

/-- In a list without duplicates, an element is past the first {lit}`n` exactly when it
is not among them. -/
theorem mem_drop_iff_not_mem_take {γ : Type*} {l : List γ} (hl : l.Nodup) {n : Nat} {x : γ} :
    x ∈ l.drop n ↔ x ∈ l ∧ x ∉ l.take n := by
  have hsplit := List.take_append_drop n l
  have hdisj : ∀ a ∈ l.take n, ∀ b ∈ l.drop n, a ≠ b := by
    rw [← hsplit, List.nodup_append] at hl
    exact hl.2.2
  constructor
  · intro hx
    exact ⟨List.mem_of_mem_drop hx, fun ht => hdisj x ht x hx rfl⟩
  · rintro ⟨hx, hnt⟩
    rw [← hsplit, List.mem_append] at hx
    exact hx.resolve_left hnt

end Lib
end Uranus
