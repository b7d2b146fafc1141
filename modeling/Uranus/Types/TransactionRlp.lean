import Uranus.Types.Transaction

/-!
# The wire format of a transaction

A transaction decoded from the network goes through {lit}`Transaction.DecodeRLP`,
which runs the reflection decoder at {lit}`txdataTy`.  Its fuel only bounds the
slice loops, so a result other than running out of fuel holds for every larger
fuel, as for {lit}`DecodeBytes`.

{lit}`txdata.Tos` is a slice, and the tag {lit}`rlp:"nil"` on it changes nothing:
the writer of a nil slice writes the empty list, as for an empty one, and the
decoder of a slice reads the empty list as an empty slice.  A transaction created
without recipients, which the executor runs as a contract creation because its
{lit}`Tos()` is nil, comes back from the wire with an empty, non-nil
{lit}`Tos()`.  Its hash and its signing hash are those of the original, since the
two encodings are the same bytes.

Main results:

- Theorem {lit}`DecodeBytesTransaction_of_fuel_le`: results other than running out
  of fuel hold for every larger fuel.
- Theorem {lit}`DecodeBytesTransaction_nil_tos`: the round trip of a transaction
  without recipients.
-/

namespace Uranus
namespace Types

open Rlp

/-- More fuel decodes whatever less fuel decodes, the same way. -/
theorem DecodeRLP_refines {n m : Nat} (h : n ≤ m) : Refines (DecodeRLP n) (DecodeRLP m) :=
  (Refines.refl _).bind fun _ => (streamDecode_refines h txdataTy).bind fun _ => Refines.refl _

/-- Decoding a transaction from bytes decodes one value and rejects bytes after it. -/
theorem DecodeBytesTransaction_eq_readResult (fuel : Nat) (b : Bytes) :
    DecodeBytesTransaction fuel b =
      readResult (fun tx s => if s.input ≠ [] then .error .ErrMoreThanOneValue else .ok tx)
        (DecodeRLP fuel (Stream.reset b)) := by
  unfold DecodeBytesTransaction readResult
  cases DecodeRLP fuel (Stream.reset b) <;> rfl

/-- A decoded transaction, or an error other than running out of fuel, is reached
with every larger fuel. -/
theorem DecodeBytesTransaction_of_fuel_le {n m : Nat} (h : n ≤ m) {b : Bytes}
    {r : Except CodecError Transaction} (hr : DecodeBytesTransaction n b = r)
    (hne : r ≠ .error .outOfFuel) : DecodeBytesTransaction m b = r := by
  rw [DecodeBytesTransaction_eq_readResult] at hr ⊢
  exact (DecodeRLP_refines h (Stream.reset b)).read _ hr hne

/-- The transaction {lit}`NewTransaction(Binary, 0, nil, 0, nil, nil)`, created
without recipients, has a nil {lit}`Tos()`; after the round trip through its
encoding, with any fuel, its {lit}`Tos()` is the empty slice, and the transaction
hash and the signing hash are unchanged. -/
theorem DecodeBytesTransaction_nil_tos (c : Crypto) (fuel : Nat) :
    let tx := NewTransaction Binary 0 none 0 none [] none
    tx.Tos = none ∧
    ∃ b tx', tx.EncodeRLP = .ok b ∧ DecodeBytesTransaction fuel b = .ok tx' ∧
      tx'.Tos = some [] ∧ tx'.Hash c = tx.Hash c ∧ SignerHash c tx' = SignerHash c tx := by
  intro tx
  let tx' : Transaction := ⟨{ tx.data with tos := some [] }, some 9⟩
  have henc : tx.EncodeRLP = .ok [0xC8, 0x80, 0x80, 0x80, 0x80, 0xC0, 0x80, 0x80, 0x80] := by
    decide +kernel
  -- the empty list is the encoding of a nil slice and of an empty one
  have henc' : tx'.EncodeRLP = tx.EncodeRLP := by decide +kernel
  have hsig : EncodeToBytes signerHashTy (signerHashVal tx'.data) =
      EncodeToBytes signerHashTy (signerHashVal tx.data) := by decide +kernel
  have hdec : DecodeBytesTransaction 0 [0xC8, 0x80, 0x80, 0x80, 0x80, 0xC0, 0x80, 0x80, 0x80] =
      .ok tx' := by decide +kernel
  refine ⟨rfl, _, tx', henc, DecodeBytesTransaction_of_fuel_le (Nat.zero_le fuel) hdec (by simp),
    rfl, ?_, ?_⟩
  · unfold Transaction.Hash rlpHash
    exact congrArg (fun r => c.Keccak256 (Transaction.encoded r)) henc'
  · unfold SignerHash rlpHash
    rw [hsig]

end Types
end Uranus
