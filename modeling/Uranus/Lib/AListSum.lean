import Mathlib

/-!
# Sums over the entries of an association list

A count kept beside a map, such as how many of its entries point to a key, is a sum
over the entries.  Erasing a key takes the term of its entry out of the sum, and
inserting a key puts the term of the new entry in place of the old one; in
particular the number of entries drops by one when a key that is there is erased.

Main results:

- Theorem {lit}`sum_entries_erase`: the sum is the sum without the key plus the
  key's term.
- Theorem {lit}`sum_entries_insert`: the sum after an insert.
-/

namespace Uranus
namespace Lib

variable {α : Type*} {β : α → Type*} [DecidableEq α]

/-- Erasing a key takes the term of its entry, if any, out of a sum over the entries. -/
theorem sum_entries_erase (s : AList β) (a : α) (g : Sigma β → Nat) :
    (s.entries.map g).sum =
      ((s.erase a).entries.map g).sum + (s.lookup a).elim 0 fun b => g ⟨a, b⟩ := by
  by_cases ha : a ∈ s
  · obtain ⟨b, l₁, l₂, hl₁, hs, he⟩ := List.exists_of_kerase (AList.mem_keys.mp ha)
    have hlookup : s.lookup a = some b := by
      change List.dlookup a s.entries = some b
      rw [hs, List.dlookup_append, List.dlookup_eq_none.mpr hl₁, List.dlookup_cons_eq]
      rfl
    have herase : (s.erase a).entries = l₁ ++ l₂ := he
    rw [hs, herase, hlookup, List.map_append, List.map_append, List.sum_append, List.sum_append,
      List.map_cons, List.sum_cons]
    simp only [Option.elim]
    omega
  · have hlookup : s.lookup a = none := AList.lookup_eq_none.mpr ha
    have herase : (s.erase a).entries = s.entries :=
      List.kerase_of_notMem_keys (fun h => ha (AList.mem_keys.mpr h))
    rw [herase, hlookup]
    rfl

/-- Inserting a key puts the term of the new entry in place of the old one. -/
theorem sum_entries_insert (s : AList β) (a : α) (b : β a) (g : Sigma β → Nat) :
    ((s.insert a b).entries.map g).sum = g ⟨a, b⟩ + ((s.erase a).entries.map g).sum := by
  rw [AList.entries_insert, List.map_cons, List.sum_cons]
  rfl

/-- Erasing a key that is there leaves one entry fewer. -/
theorem length_entries_erase {s : AList β} {a : α} {b : β a} (h : s.lookup a = some b) :
    (s.erase a).entries.length + 1 = s.entries.length := by
  have hsum := sum_entries_erase s a fun _ => 1
  rw [h] at hsum
  simpa [Option.elim] using hsum.symm

/-- Erasing a key does not lengthen the list of entries. -/
theorem length_entries_erase_le (s : AList β) (a : α) :
    (s.erase a).entries.length ≤ s.entries.length := by
  have hsum := sum_entries_erase s a fun _ => 1
  simp only [List.map_const', List.sum_replicate, smul_eq_mul, mul_one] at hsum
  omega

/-- Inserting a key that is there keeps the number of entries. -/
theorem length_entries_insert {s : AList β} {a : α} {b b' : β a} (h : s.lookup a = some b) :
    (s.insert a b').entries.length = s.entries.length := by
  have hins := sum_entries_insert s a b' fun _ => 1
  have hlen := length_entries_erase h
  simp only [List.map_const', List.sum_replicate, smul_eq_mul, mul_one] at hins
  omega

end Lib
end Uranus
