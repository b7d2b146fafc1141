import Mathlib

/-!
# Association lists

Go maps keyed by hashes are modelled as association lists read with
{lit}`List.lookup`, the first entry for a key winning.  This module collects the
facts about {lit}`lookup` that the stores built on such lists use: reading
through a cons, an append, a filter on keys and a map over values.

Main results:

- Theorem {lit}`lookup_filter_fst`: filtering entries by key hides exactly the
  keys filtered out.
- Theorem {lit}`lookup_map_snd`: rewriting the values maps the value read.
-/

namespace Uranus
namespace Lib

variable {α β : Type*} [DecidableEq α]

/-- Looking up in a list with a first pair. -/
@[simp]
theorem lookup_cons_eq (a k : α) (b : β) (l : List (α × β)) :
    ((a, b) :: l).lookup k = if k = a then some b else l.lookup k := by
  by_cases h : k = a
  · subst h
    simp
  · simp [List.lookup, beq_false_of_ne h, h]

/-- An entry appended after a list is read only for keys the list lacks. -/
theorem lookup_append_of_none {l : List (α × β)} {k : α} (h : l.lookup k = none)
    (l' : List (α × β)) : (l ++ l').lookup k = l'.lookup k := by
  rw [List.lookup_append, h]
  rfl

/-- A key found in a list is found the same way after anything is appended. -/
theorem lookup_append_of_some {l : List (α × β)} {k : α} {b : β} (h : l.lookup k = some b)
    (l' : List (α × β)) : (l ++ l').lookup k = some b := by
  rw [List.lookup_append, h]
  rfl

/-- Filtering entries by key hides exactly the keys filtered out. -/
theorem lookup_filter_fst (l : List (α × β)) (p : α → Bool) (k : α) :
    (l.filter fun e => p e.1).lookup k = if p k then l.lookup k else none := by
  induction l with
  | nil => simp
  | cons e l ih =>
    obtain ⟨a, b⟩ := e
    by_cases hka : k = a
    · subst hka
      by_cases hp : p k <;> simp [hp, ih]
    · by_cases hp : p a <;> simp [hp, hka, ih]

/-- Rewriting the values, each as a function of its key, maps the value read. -/
theorem lookup_map_snd (l : List (α × β)) (f : α → β → β) (k : α) :
    (l.map fun e => (e.1, f e.1 e.2)).lookup k = (l.lookup k).map (f k) := by
  induction l with
  | nil => simp
  | cons e l ih =>
    obtain ⟨a, b⟩ := e
    by_cases hka : k = a
    · subst hka
      simp
    · simp [hka, ih]

end Lib
end Uranus
