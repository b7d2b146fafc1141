import Mathlib

/-!
# Common prefixes of lists

Radix tries branch at the first position where two keys differ.  This module
defines the length of the longest common prefix of two lists and proves the
facts a trie proof uses about it: both lists agree up to that length, they
differ right after it, and it reaches the length of a list exactly when that
list is a prefix of the other.

Main results:

- Theorem {lit}`commonPrefixLen_take`: both lists share the prefix of that length.
- Theorem {lit}`commonPrefixLen_getElem_ne`: the lists differ at that position.
- Theorem {lit}`commonPrefixLen_eq_length_iff`: the length of the left list is
  reached exactly when it is a prefix of the right list.
-/

namespace Uranus
namespace Lib

variable {α : Type*} [DecidableEq α]

/-- Length of the longest common prefix of two lists. -/
def commonPrefixLen : List α → List α → Nat
  | a :: as, b :: bs => if a = b then commonPrefixLen as bs + 1 else 0
  | _, _ => 0

/-- Nothing is common with the empty list. -/
@[simp]
theorem commonPrefixLen_nil_left (bs : List α) : commonPrefixLen [] bs = 0 := rfl

/-- The empty list has nothing in common with a list. -/
@[simp]
theorem commonPrefixLen_nil_right (as : List α) : commonPrefixLen as [] = 0 := by
  cases as <;> rfl

/-- One step of the count: equal heads add one, different heads stop it. -/
theorem commonPrefixLen_cons (a b : α) (as bs : List α) :
    commonPrefixLen (a :: as) (b :: bs) =
      if a = b then commonPrefixLen as bs + 1 else 0 := rfl

/-- A shared head adds one to the common prefix. -/
@[simp]
theorem commonPrefixLen_cons_self (a : α) (as bs : List α) :
    commonPrefixLen (a :: as) (a :: bs) = commonPrefixLen as bs + 1 := by
  simp [commonPrefixLen_cons]

/-- The common prefix of two lists does not depend on their order. -/
theorem commonPrefixLen_comm (as bs : List α) :
    commonPrefixLen as bs = commonPrefixLen bs as := by
  induction as generalizing bs with
  | nil => simp
  | cons a as ih =>
    cases bs with
    | nil => simp
    | cons b bs =>
      by_cases hab : a = b
      · subst hab
        simp [ih]
      · simp [commonPrefixLen_cons, hab, Ne.symm hab]

/-- The common prefix is no longer than the left list. -/
theorem commonPrefixLen_le_left (as bs : List α) : commonPrefixLen as bs ≤ as.length := by
  induction as generalizing bs with
  | nil => simp
  | cons a as ih =>
    cases bs with
    | nil => simp
    | cons b bs =>
      rw [commonPrefixLen_cons]
      split
      · simpa using ih bs
      · simp

/-- The common prefix is no longer than the right list. -/
theorem commonPrefixLen_le_right (as bs : List α) : commonPrefixLen as bs ≤ bs.length := by
  rw [commonPrefixLen_comm]
  exact commonPrefixLen_le_left bs as

/-- Both lists share their prefix of common-prefix length. -/
theorem commonPrefixLen_take (as bs : List α) :
    as.take (commonPrefixLen as bs) = bs.take (commonPrefixLen as bs) := by
  induction as generalizing bs with
  | nil => simp
  | cons a as ih =>
    cases bs with
    | nil => simp
    | cons b bs =>
      rw [commonPrefixLen_cons]
      split
      · rename_i hab
        subst hab
        simp [ih bs]
      · simp

/-- Right after the common prefix the two lists differ, when both continue. -/
theorem commonPrefixLen_getElem_ne (as bs : List α)
    (has : commonPrefixLen as bs < as.length) (hbs : commonPrefixLen as bs < bs.length) :
    as[commonPrefixLen as bs] ≠ bs[commonPrefixLen as bs] := by
  induction as generalizing bs with
  | nil => simp at has
  | cons a as ih =>
    cases bs with
    | nil => simp at hbs
    | cons b bs =>
      by_cases hab : a = b
      · subst hab
        simp only [commonPrefixLen_cons_self, List.length_cons, Nat.add_lt_add_iff_right]
          at has hbs
        simpa using ih bs has hbs
      · simp [commonPrefixLen_cons, hab]

/-- The common prefix with an extension of the left list is the whole left list. -/
theorem commonPrefixLen_append_right (as cs : List α) :
    commonPrefixLen as (as ++ cs) = as.length := by
  induction as with
  | nil => simp
  | cons a as ih => simp [ih]

/-- The left list is used up exactly when it is a prefix of the right list. -/
theorem commonPrefixLen_eq_length_iff (as bs : List α) :
    commonPrefixLen as bs = as.length ↔ as <+: bs := by
  constructor
  · intro h
    have htake := commonPrefixLen_take as bs
    rw [h, List.take_length] at htake
    rw [htake]
    exact List.take_prefix _ _
  · rintro ⟨cs, rfl⟩
    exact commonPrefixLen_append_right as cs

/-- A proper common prefix splits both lists at a pair of distinct elements. -/
theorem commonPrefixLen_split (as bs : List α)
    (has : commonPrefixLen as bs < as.length) (hbs : commonPrefixLen as bs < bs.length) :
    ∃ p a b ras rbs, as = p ++ a :: ras ∧ bs = p ++ b :: rbs ∧ a ≠ b ∧
      p.length = commonPrefixLen as bs := by
  refine ⟨as.take (commonPrefixLen as bs), as[commonPrefixLen as bs],
    bs[commonPrefixLen as bs], as.drop (commonPrefixLen as bs + 1),
    bs.drop (commonPrefixLen as bs + 1), ?_, ?_, commonPrefixLen_getElem_ne as bs has hbs, ?_⟩
  · simp
  · rw [commonPrefixLen_take]
    simp
  · simp only [List.length_take]
    omega

end Lib
end Uranus
