import Uranus.Lib.EStateRun
import Uranus.Rlp.Writer
import Uranus.Rlp.Fuel

/-!
# A zero byte that the byte-array decoder leaves unread

{lit}`decodeByteArray` reads an array of one byte whose header is a single byte with
{lit}`s.Uint()`, and drops its error.  For the byte {lit}`0x00` that error is
{lit}`ErrCanonInt`, which {lit}`uint` returns before it re-arms {lit}`Kind`: the header
stays kept, and the next value decoded inside the same list reads the same zero byte
again.  So the element is zero, but the input has not moved.

Inside a struct this breaks both directions of the round trip.  An integer field
after the array reads the kept zero and fails as a non-canonical integer, so the
encoding of {lit}`struct { A [1]byte; B uint64 }{A: [1]byte{0}, B: 5}` does not
decode.  A second array of one byte takes the kept zero as its own element, so a
list of one zero byte decodes as two fields and re-encodes as two bytes.

Main results:

- Theorem {lit}`decodeFields_zero_byte_uint`: an integer field after a zero
  one-byte array fails, whatever follows in the input.
- Theorem {lit}`decodeFields_zero_byte_twice`: two one-byte arrays read one zero
  byte.
- Theorems {lit}`DecodeBytes_EncodeToBytes_zero_byte_fails` and
  {lit}`DecodeBytes_zero_byte_pair_reencodes`: the two runs, for every fuel.
-/

namespace Uranus
namespace Rlp

open Lib

/-! ## The header a zero byte leaves kept -/

/-- A successful {lit}`readAhead` leaves the kind and size it read in the stream, with no
kind error. -/
theorem readAhead_ok_kept {s s' : Stream} {k : Kind} {size : Nat}
    (h : readAhead s = .ok (k, size) s') : s'.kind = some k ∧ s'.kinderr = none ∧ s'.size = size := by
  unfold readAhead at h
  dsimp only at h
  split at h
  next hnone =>
    simp only [EStateM.Result.ok.injEq, Prod.mk.injEq] at h
    obtain ⟨⟨rfl, rfl⟩, rfl⟩ := h
    exact ⟨rfl, hnone, rfl⟩
  next => cases h

/-- A header {lit}`Kind` returns stays kept, without error, until a read re-arms it. -/
theorem streamKind_ok_kept {s s' : Stream} {k : Kind} {size : Nat}
    (h : streamKind s = .ok (k, size) s') : s'.kind = some k ∧ s'.kinderr = none ∧ s'.size = size := by
  unfold streamKind at h
  dsimp only at h
  split at h
  · -- the kept header
    split at h
    · cases h
      exact ⟨by assumption, by assumption, rfl⟩
    · cases h
  · -- a fresh header, inside a list or at the top level
    split at h
    · split at h
      · cases h
      · exact readAhead_ok_kept h
    · exact readAhead_ok_kept h

/-- With a header kept and no error, {lit}`Kind` returns it and changes nothing. -/
theorem streamKind_kept {s : Stream} {k : Kind} (hk : s.kind = some k) (he : s.kinderr = none) :
    streamKind s = .ok (k, s.size) s := by
  simp [streamKind, hk, he]

/-! ## The fields after a zero one-byte array -/

/-- {lit}`struct { A [1]byte; B uint64 }`. -/
def byteArrayUintStruct : Ty :=
  .struct [("A", Tags.none, .array 1 (.uint 8)), ("B", Tags.none, .uint 64)]

/-- {lit}`struct { A, B [1]byte }`. -/
def byteArrayPairStruct : Ty :=
  .struct [("A", Tags.none, .array 1 (.uint 8)), ("B", Tags.none, .array 1 (.uint 8))]

/-- The stream of {lit}`DecodeBytes` on {lit}`[0xC2, 0x00, 0x05]` once the struct's
list is entered, and after its first header. -/
def enteredZeroByte : Stream := ⟨[0x00, 0x05], 2, true, none, 0, 0, none, [⟨0, 2⟩]⟩

def keptZeroByte : Stream := ⟨[0x05], 1, true, some .Byte, 0, 0, none, [⟨1, 2⟩]⟩

section ZeroByte

variable {s s' : Stream} {size : Nat}

/-- {lit}`uint` on the single byte zero: not canonical, and the header stays kept. -/
theorem streamUint_zero_byte (maxbits : Nat) (hk : streamKind s = .ok (.Byte, size) s')
    (hz : s'.byteval = 0) : streamUint maxbits s = .error .ErrCanonInt s' := by
  unfold streamUint
  rw [bind_apply_ok hk]
  simp [getByteval, hz, bind_apply]

/-- Read as an integer with the canonical check skipped, a zero byte is {lit}`0`. -/
theorem uintIgnoringError_zero_byte (hk : streamKind s = .ok (.Byte, size) s')
    (hz : s'.byteval = 0) : uintIgnoringError s = .ok 0 s' := by
  simp [uintIgnoringError, streamUint_zero_byte 64 hk hz]

/-- A one-byte array whose header is the byte zero decodes to zero and leaves the
header kept. -/
theorem decodeByteArray_zero_byte (typ : Ty) (hk : streamKind s = .ok (.Byte, size) s')
    (hz : s'.byteval = 0) : decodeByteArray 1 typ s = .ok (.bytes [0]) s' := by
  obtain ⟨hkind, herr, -⟩ := streamKind_ok_kept hk
  -- {lit}`Uint` reads the header {lit}`Kind` has just kept
  have hu := uintIgnoringError_zero_byte (streamKind_kept hkind herr) hz
  unfold decodeByteArray
  rw [bind_apply_ok hk]
  simp [map_apply_ok hu]

/-- Read as an integer, a zero byte fails with the leading-zero error. -/
theorem decodeUint_zero_byte (bits : Nat) (hk : streamKind s = .ok (.Byte, size) s')
    (hz : s'.byteval = 0) :
    decodeUint bits s =
      .error (.decodeError "non-canonical integer (leading zero bytes)" (.uint bits) []) s' := by
  have hu : mapError (wrapStreamError (.uint bits)) (streamUint bits) s =
      .error (wrapStreamError (.uint bits) .ErrCanonInt) s' := by
    simp [mapError, streamUint_zero_byte bits hk hz]
  unfold decodeUint
  rw [bind_apply_error hu]
  rfl

/-- The field of a one-byte array, as {lit}`makeDecoder` builds it. -/
def byteArrayField (name : String) (ts : Tags) : String × Tags × Ty × Decoder :=
  (name, ts, .array 1 (.uint 8), decodeByteArray 1 (.array 1 (.uint 8)))

variable {typ : Ty} {a b : String} {ta tb : Tags} (fs : List (String × Tags × Ty × Decoder))

/-- An integer field after a one-byte array that read the byte zero reads the same
byte and fails, whatever the input holds after it. -/
theorem decodeFields_zero_byte_uint (bits : Nat) (ha : ta.ignored = false) (hb : tb.ignored = false)
    (hk : streamKind s = .ok (.Byte, size) s') (hz : s'.byteval = 0) :
    decodeFields typ (byteArrayField a ta :: (b, tb, .uint bits, decodeUint bits) :: fs) s =
      .error (.decodeError "non-canonical integer (leading zero bytes)" (.uint bits) ["." ++ b]) s' := by
  obtain ⟨hkind, herr, -⟩ := streamKind_ok_kept hk
  have hA := decodeByteArray_zero_byte (.array 1 (.uint 8)) hk hz
  -- the integer field finds the header the array left kept
  have hB := decodeUint_zero_byte bits (streamKind_kept hkind herr) hz
  rw [byteArrayField, decodeFields_cons_ok ha hA, map_apply_error (decodeFields_cons_error hb hB (by simp))]
  rfl

/-- A struct of a byte array and an integer fails on the zero byte at its second field,
whose path the error names. -/
theorem decodeFields_zero_byte_uint_entered :
    decodeFields byteArrayUintStruct [byteArrayField "A" .none, ("B", .none, .uint 64, decodeUint 64)]
        enteredZeroByte =
      .error (.decodeError "non-canonical integer (leading zero bytes)" (.uint 64) [".B"]) keptZeroByte :=
  decodeFields_zero_byte_uint [] 64 rfl rfl rfl rfl

/-- Two one-byte arrays after each other read one zero byte: both are zero, and the
fields after them start where the first found its header. -/
theorem decodeFields_zero_byte_twice (ha : ta.ignored = false) (hb : tb.ignored = false)
    (hk : streamKind s = .ok (.Byte, size) s') (hz : s'.byteval = 0) :
    decodeFields typ (byteArrayField a ta :: byteArrayField b tb :: fs) s =
      ((fun vs => .bytes [0] :: .bytes [0] :: vs) <$> decodeFields typ fs) s' := by
  obtain ⟨hkind, herr, -⟩ := streamKind_ok_kept hk
  have hA := decodeByteArray_zero_byte (.array 1 (.uint 8)) hk hz
  have hB := decodeByteArray_zero_byte (.array 1 (.uint 8)) (streamKind_kept hkind herr) hz
  rw [byteArrayField, byteArrayField, decodeFields_cons_ok ha hA,
    map_apply_of_eq (decodeFields_cons_ok hb hB), Functor.map_map]

/-- A struct of two byte arrays reads the same zero byte into both fields. -/
theorem decodeFields_zero_byte_twice_entered :
    decodeFields byteArrayPairStruct [byteArrayField "A" .none, byteArrayField "B" .none] enteredZeroByte =
      .ok [.bytes [0], .bytes [0]] keptZeroByte :=
  decodeFields_zero_byte_twice [] rfl rfl rfl rfl

end ZeroByte

/-! ## The two runs -/

/-- The value {lit}`{A: [1]byte{0}, B: 5}` has its type and encodes to three bytes,
which do not decode, with any fuel. -/
theorem DecodeBytes_EncodeToBytes_zero_byte_fails (fuel : Nat) :
    byteArrayUintStruct.holds (.list [.bytes [0], .uint 5]) = true ∧
    EncodeToBytes byteArrayUintStruct (.list [.bytes [0], .uint 5]) = .ok [0xC2, 0x00, 0x05] ∧
    DecodeBytes fuel byteArrayUintStruct [0xC2, 0x00, 0x05] =
      .error (.decodeError "non-canonical integer (leading zero bytes)" (.uint 64) [".B"]) :=
  ⟨by decide +kernel, by decide +kernel,
    DecodeBytes_of_fuel_le (Nat.zero_le fuel) (by decide +kernel) (by simp)⟩

/-- The list of one zero byte decodes, with any fuel, to two zero arrays, which
encode to another byte string. -/
theorem DecodeBytes_zero_byte_pair_reencodes (fuel : Nat) :
    DecodeBytes fuel byteArrayPairStruct [0xC1, 0x00] = .ok (.list [.bytes [0], .bytes [0]]) ∧
    EncodeToBytes byteArrayPairStruct (.list [.bytes [0], .bytes [0]]) = .ok [0xC2, 0x00, 0x00] :=
  ⟨DecodeBytes_of_fuel_le (Nat.zero_le fuel) (by decide +kernel) (by simp), by decide +kernel⟩

end Rlp
end Uranus
