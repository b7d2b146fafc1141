import Mathlib

/-!
# Common byte types

The Go code passes keys, values and encodings as {lit}`[]byte` slices and
identifies trie nodes and accounts by fixed-size arrays.  This module gives the
shared vocabulary: byte strings are lists of bytes, and {lit}`utils.Hash` and
{lit}`utils.Address` are byte strings that carry their fixed length as a field,
so that a value of the wrong size cannot be built.

Main results:

- Definitions {lit}`BytesToHash` and {lit}`BytesToAddress`: the {lit}`SetBytes`
  conversions, which keep the last bytes and pad on the left.
- Theorem {lit}`BytesToHash_bytes`: converting the bytes of a hash gives the hash back.
-/

namespace Uranus

/-- A Go {lit}`[]byte` slice. -/
abbrev Bytes := List UInt8

/-- {lit}`utils.Hash`, a 32-byte array. -/
structure Hash where
  bytes : Bytes
  length_bytes : bytes.length = 32
deriving DecidableEq

/-- {lit}`utils.Address`, a 20-byte array. -/
structure Address where
  bytes : Bytes
  length_bytes : bytes.length = 20
deriving DecidableEq

/-- {lit}`SetBytes` on an {lit}`n`-byte array: a longer input is cropped from the
left and a shorter one is copied to the right end of a zero array. -/
def setBytes (n : Nat) (b : Bytes) : Bytes :=
  List.replicate (n - b.length) 0 ++ b.drop (b.length - n)

/-- {lit}`setBytes n` gives {lit}`n` bytes. -/
theorem length_setBytes (n : Nat) (b : Bytes) : (setBytes n b).length = n := by
  simp only [setBytes, List.length_append, List.length_replicate, List.length_drop]
  omega

/-- {lit}`setBytes n` keeps a string of {lit}`n` bytes. -/
theorem setBytes_of_length {n : Nat} {b : Bytes} (h : b.length = n) : setBytes n b = b := by
  subst h
  simp [setBytes]

/-- {lit}`utils.BytesToHash`. -/
def BytesToHash (b : Bytes) : Hash := ⟨setBytes 32 b, length_setBytes 32 b⟩

/-- {lit}`utils.BytesToAddress`. -/
def BytesToAddress (b : Bytes) : Address := ⟨setBytes 20 b, length_setBytes 20 b⟩

/-- The all-zero hash {lit}`utils.Hash{}`. -/
def Hash.zero : Hash := ⟨List.replicate 32 0, by simp⟩

/-- The all-zero address {lit}`utils.Address{}`. -/
def Address.zero : Address := ⟨List.replicate 20 0, by simp⟩

/-- Hashes with the same bytes are equal. -/
theorem Hash.ext {h₁ h₂ : Hash} (h : h₁.bytes = h₂.bytes) : h₁ = h₂ := by
  cases h₁
  cases h₂
  cases h
  rfl

/-- Addresses with the same bytes are equal. -/
theorem Address.ext {a₁ a₂ : Address} (h : a₁.bytes = a₂.bytes) : a₁ = a₂ := by
  cases a₁
  cases a₂
  cases h
  rfl

/-- {lit}`BytesToHash` of a hash's bytes is the hash. -/
@[simp]
theorem BytesToHash_bytes (h : Hash) : BytesToHash h.bytes = h :=
  Hash.ext (setBytes_of_length h.length_bytes)

/-- {lit}`BytesToAddress` of an address's bytes is the address. -/
@[simp]
theorem BytesToAddress_bytes (a : Address) : BytesToAddress a.bytes = a :=
  Address.ext (setBytes_of_length a.length_bytes)

end Uranus
