import Uranus.Lib.Panics
import Uranus.Params.Config
import Uranus.Rlp.Fuel
import Uranus.Rlp.Writer

/-!
# Transactions ({lit}`types.Transaction`)

A transaction is its {lit}`txdata`, serialised by the reflection codec, with the
size that {lit}`DecodeRLP` caches.  Go keeps a nil slice apart from an empty one,
and {lit}`txdata.Tos` is a slice: the field carries the tag {lit}`rlp:"nil"`, which
the decoder honours for pointers only, so a nil list of recipients is written as
the empty list and read back as an empty slice.  {lit}`Tos() == nil` is how the
executor tells a contract creation, so the distinction matters.

The cryptographic primitives are parameters: the Keccak-256 sum and public-key
recovery, which returns a key or an error.  A Go panic is {lean}`none` in
{lean}`Option`; a method that can also fail runs in {lit}`ExceptT` over it.

Main results:

- Definitions {lit}`NewTransaction`, {lit}`Validate`, {lit}`Transaction.Hash`,
  {lit}`Signer.Hash` and {lit}`Sender`, with {lit}`SignatureValues`, which panics on
  a signature whose length is not 65.
- Definitions {lit}`EncodeRLP` and {lit}`DecodeBytesTransaction`: the wire format,
  through the reflection codec of {lit}`common/rlp` at {lit}`txdataTy`.
- Theorem {lit}`txdata.ofVal_toVal`: the data is recovered from its value.
-/

namespace Uranus
namespace Types

open Rlp Params

/-- {lit}`TxType`, a {lit}`uint64`. -/
abbrev TxType := UInt64

def Binary : TxType := 0
def LoginCandidate : TxType := 1
def LogoutCandidate : TxType := 2
def Delegate : TxType := 3
def UnDelegate : TxType := 4
def Redeem : TxType := 5

/-- {lit}`txdata`.  A nil {lit}`*big.Int`, slice or pointer is {lean}`none`; the two
byte slices are only read for their bytes, and a nil one is empty. -/
structure txdata where
  type : TxType
  nonce : UInt64
  gasPrice : Option Int
  gasLimit : UInt64
  tos : Option (List (Option Address))
  value : Option Int
  payload : Bytes
  signature : Bytes
deriving DecidableEq

/-- {lit}`Transaction`: the data and the cached encoded size.  The caches of the hash
and of the sender hold what {lit}`Hash` and {lit}`Sender` compute, and are left out. -/
structure Transaction where
  data : txdata
  size : Option Nat
deriving DecidableEq

/-- {lit}`NewTransaction`.  The recipients are the variadic argument: nil when none is
given. -/
def NewTransaction (txType : TxType) (nonce : UInt64) (value : Option Int) (gasLimit : UInt64)
    (gasPrice : Option Int) (data : Bytes) (tos : Option (List (Option Address))) : Transaction :=
  ⟨{ type := txType, nonce := nonce, gasPrice := some (gasPrice.getD 0), gasLimit := gasLimit,
     tos := tos, value := some (value.getD 0), payload := data, signature := [] }, none⟩

namespace Transaction

variable (tx : Transaction)

/-- {lit}`Tos`: nil for a nil slice. -/
def Tos : Option (List (Option Address)) := tx.data.tos

/-- {lit}`Type`, a name Lean keeps for itself. -/
def txType : TxType := tx.data.type
def Nonce : UInt64 := tx.data.nonce
def Gas : UInt64 := tx.data.gasLimit
def Payload : Bytes := tx.data.payload

/-- {lit}`Value`: a copy, which panics on a nil value. -/
def Value : Option Int := tx.data.value

/-- {lit}`GasPrice`: a copy, which panics on a nil price. -/
def GasPrice : Option Int := tx.data.gasPrice

/-- {lit}`Cost`: value plus price times gas. -/
def Cost : Option Int := do
  let price ← tx.data.gasPrice
  let value ← tx.data.value
  pure (price * tx.data.gasLimit.toNat + value)

end Transaction

/-! ## Validate -/

/-- The errors of {lit}`Validate`, with their texts. -/
inductive ValidateError where
  /-- {lit}`binary transaction tos need not greater than 1` -/
  | binaryTos
  /-- {lit}`tos was required but not greater than %v` -/
  | delegateTos (maxVotes : Int)
  /-- {lit}`delegate state was required but not lesser than %v` -/
  | delegateState (minDelegateState : Int)
  /-- {lit}`LoginCandidate、LogoutCandidate、UnDelegate、Redeem tx.tos wasn't required` -/
  | tosNotRequired
  /-- {lit}`LoginCandidate、LogoutCandidate、UnDelegate、Redeem tx.value wasn't required` -/
  | valueNotRequired
  | ErrInvalidType
deriving DecidableEq

/-- {lit}`Validate`: the recipients and value each type admits. -/
def Transaction.Validate (tx : Transaction) (cfg : ChainConfig) : ExceptT ValidateError Option Unit := do
  let tos := (tx.Tos.getD []).length
  if tx.txType = Binary then
    if tos > 1 then throw .binaryTos
  else if tx.txType = Delegate then
    if (tos : Int) > cfg.maxVotes then throw (.delegateTos cfg.maxVotes)
    match cfg.minDelegateState with
    | some m =>
      let v ← (tx.Value : Option Int)
      if m > v then throw (.delegateState m)
    | none => pure ()
  else if tx.txType = UnDelegate then
    if tos ≠ 0 then throw .tosNotRequired
  else if tx.txType = Redeem ∨ tx.txType = LoginCandidate ∨ tx.txType = LogoutCandidate then
    if tos ≠ 0 then throw .tosNotRequired
    let v ← (tx.Value : Option Int)
    if v ≠ 0 then throw .valueNotRequired
  else throw .ErrInvalidType

/-! ## The wire format -/

/-- The Go type {lit}`txdata` as the reflection codec sees it. -/
def txdataTy : Ty :=
  .struct [("Type", Tags.none, .uint 64), ("Nonce", Tags.none, .uint 64),
    ("GasPrice", Tags.none, .bigInt), ("GasLimit", Tags.none, .uint 64),
    ("Tos", ⟨true, false, false⟩, .slice (.ptr (.array 20 (.uint 8)))),
    ("Value", Tags.none, .bigInt), ("Payload", Tags.none, .slice (.uint 8)),
    ("Signature", Tags.none, .slice (.uint 8))]

/-- A {lit}`*big.Int` as a value. -/
def bigVal : Option Int → Val
  | none => .nil
  | some x => .bigInt x

/-- A {lit}`*utils.Address` as a value. -/
def addressVal : Option Address → Val
  | none => .nil
  | some a => .ptr (.bytes a.bytes)

/-- A slice of recipients as a value. -/
def tosVal : Option (List (Option Address)) → Val
  | none => .nil
  | some as => .list (as.map addressVal)

namespace txdata

/-- The value of the data, field by field. -/
def toVal (d : txdata) : Val :=
  .list [.uint d.type.toNat, .uint d.nonce.toNat, bigVal d.gasPrice, .uint d.gasLimit.toNat,
    tosVal d.tos, bigVal d.value, .bytes d.payload, .bytes d.signature]

def bigOfVal : Val → Option (Option Int)
  | .nil => some none
  | .bigInt x => some (some x)
  | _ => none

def addressOfVal : Val → Option (Option Address)
  | .nil => some none
  | .ptr (.bytes b) => if h : b.length = 20 then some (some ⟨b, h⟩) else none
  | _ => none

def tosOfVal : Val → Option (Option (List (Option Address)))
  | .nil => some none
  | .list vs => (vs.mapM addressOfVal).map some
  | _ => none

def bytesOfVal : Val → Option Bytes
  | .nil => some []
  | .bytes b => some b
  | _ => none

/-- The data a decoded value stands for; the decoder only returns values of the
type, whose integers fit their size. -/
def ofVal : Val → Option txdata
  | .list [.uint ty, .uint nonce, gp, .uint gl, tos, v, p, sig] => do
    let gasPrice ← bigOfVal gp
    let tos ← tosOfVal tos
    let value ← bigOfVal v
    let payload ← bytesOfVal p
    let signature ← bytesOfVal sig
    pure ⟨ty.toUInt64, nonce.toUInt64, gasPrice, gl.toUInt64, tos, value, payload, signature⟩
  | _ => none

/-- An optional big integer is read back from its value. -/
theorem bigOfVal_bigVal (x : Option Int) : bigOfVal (bigVal x) = some x := by
  cases x <;> rfl

/-- A list of optional recipients is read back from its value. -/
theorem tosOfVal_tosVal (tos : Option (List (Option Address))) : tosOfVal (tosVal tos) = some tos := by
  cases tos with
  | none => rfl
  | some as =>
    have h : ∀ a, addressOfVal (addressVal a) = some a := by
      intro a
      cases a with
      | none => rfl
      | some a => simp [addressVal, addressOfVal, a.length_bytes]
    have hmap : ∀ as : List (Option Address), as.mapM (addressOfVal ∘ addressVal) = some as := by
      intro as
      induction as with
      | nil => rfl
      | cons a as ih => simp [List.mapM_cons, h a, ih]
    simp [tosVal, tosOfVal, List.mapM_map, hmap]

/-- Reading the value of the data gives the data back. -/
theorem ofVal_toVal (d : txdata) : ofVal d.toVal = some d := by
  simp [toVal, ofVal, bigOfVal_bigVal, tosOfVal_tosVal, bytesOfVal]

end txdata

/-- {lit}`rlp.ListSize`: the encoded size of a list of the given content size. -/
def ListSize (contentSize : Nat) : Nat := headsize contentSize + contentSize

namespace Transaction

variable (tx : Transaction)

/-- {lit}`EncodeRLP`: the encoding of the data. -/
def EncodeRLP : Except CodecError Bytes := EncodeToBytes txdataTy tx.data.toVal

/-- The bytes {lit}`rlp.Encode` writes to a hasher or counter: none when encoding
fails. -/
def encoded (r : Except CodecError Bytes) : Bytes :=
  match r with
  | .ok b => b
  | .error _ => []

/-- {lit}`Size`: the cached size, or the length of the encoding. -/
def Size : Nat :=
  match tx.size with
  | some n => n
  | none => (encoded tx.EncodeRLP).length

end Transaction

/-- {lit}`s.Kind()` whose error is dropped: the size is then zero, and the stream is as
the failing call left it. -/
def kindSizeIgnoringError : StreamM Nat := fun s =>
  match streamKind s with
  | .ok (_, size) s => .ok size s
  | .error _ s => .ok 0 s

/-- {lit}`Transaction.DecodeRLP`, with fuel for the decoder's slice loops: read the
header, then decode the data; the size is cached on success. -/
def DecodeRLP (fuel : Nat) : StreamM Transaction := do
  let size ← kindSizeIgnoringError
  let v ← streamDecode fuel txdataTy
  match txdata.ofVal v with
  | some d => pure ⟨d, some (ListSize size)⟩
  | none => throw .illTyped

/-- {lit}`rlp.DecodeBytes(b, tx)` for a {lit}`*Transaction`: its {lit}`DecodeRLP`, and
no bytes after it. -/
def DecodeBytesTransaction (fuel : Nat) (b : Bytes) : Except CodecError Transaction :=
  match DecodeRLP fuel (Stream.reset b) with
  | .error e _ => .error e
  | .ok tx s => if s.input ≠ [] then .error .ErrMoreThanOneValue else .ok tx

/-! ## Hashes and the sender -/

/-- The primitives the code calls from {lit}`common/crypto`. -/
structure Crypto where
  Keccak256 : Bytes → Hash
  /-- {lit}`EcrecoverToByte`: a public key, or an error -/
  EcrecoverToByte : Hash → Bytes → Option Bytes

/-- {lit}`rlpHash`: the Keccak-256 sum of what {lit}`rlp.Encode` writes. -/
def rlpHash (c : Crypto) (t : Ty) (v : Val) : Hash :=
  c.Keccak256 (Transaction.encoded (EncodeToBytes t v))

/-- {lit}`Hash`: the hash of the encoding. -/
def Transaction.Hash (c : Crypto) (tx : Transaction) : Hash := rlpHash c txdataTy tx.data.toVal

/-- The seven values {lit}`Signer.Hash` puts in a {lit}`[]interface{}`.  Each element
is written by the writer of its dynamic type, which is the field's writer, so the
list is written as a struct of those fields. -/
def signerHashTy : Ty :=
  .struct [("Type", Tags.none, .uint 64), ("Nonce", Tags.none, .uint 64),
    ("GasPrice", Tags.none, .bigInt), ("GasLimit", Tags.none, .uint 64),
    ("Tos", Tags.none, .slice (.ptr (.array 20 (.uint 8)))),
    ("Value", Tags.none, .bigInt), ("Payload", Tags.none, .slice (.uint 8))]

def signerHashVal (d : txdata) : Val :=
  .list [.uint d.type.toNat, .uint d.nonce.toNat, bigVal d.gasPrice, .uint d.gasLimit.toNat,
    tosVal d.tos, bigVal d.value, .bytes d.payload]

/-- {lit}`Signer.Hash`: the hash a sender signs, of every field but the signature. -/
def SignerHash (c : Crypto) (tx : Transaction) : Hash := rlpHash c signerHashTy (signerHashVal tx.data)

/-- {lit}`SignatureValues`: {lit}`R`, {lit}`S` and {lit}`V` of a signature in the
form {lit}`[R || S || V]`; a signature whose length is not 65 panics. -/
def SignatureValues (signature : Bytes) : Option (Nat × Nat × Nat) :=
  if signature.length ≠ 65 then none
  else some (bigEndian (signature.take 32), bigEndian ((signature.drop 32).take 32),
    bigEndian [signature.getD 64 0 + 27])

/-- A signature that is not 65 bytes long has no values. -/
theorem SignatureValues_of_length_ne {signature : Bytes} (h : signature.length ≠ 65) :
    SignatureValues signature = none := by
  simp [SignatureValues, h]

/-- The errors of {lit}`recoverPlain`. -/
inductive SenderError where
  /-- {lit}`invalid chain id for signer --- bit length %d > 8` -/
  | invalidChainId (bitLen : Nat)
  /-- the error of {lit}`EcrecoverToByte` -/
  | ecrecover
  /-- {lit}`invalid public key` -/
  | invalidPublicKey
deriving DecidableEq

/-- {lit}`recoverPlain`: rebuild the 65-byte signature and recover the signer's
address.  {lit}`R` and {lit}`S` longer than 32 bytes would not fit and panic. -/
def recoverPlain (c : Crypto) (sighash : Hash) (R S Vb : Nat) : ExceptT SenderError Option Address := do
  if Nat.size Vb > 8 then throw (.invalidChainId (Nat.size Vb))
  let V : UInt8 := (UInt64.ofNat Vb - 27).toUInt8
  let r := bigBytes R
  let s := bigBytes S
  if r.length > 32 ∨ s.length > 32 then (none : Option Unit)
  let sig := List.replicate (32 - r.length) 0 ++ r ++ List.replicate (32 - s.length) 0 ++ s ++ [V]
  match c.EcrecoverToByte sighash sig with
  | none => throw .ecrecover
  | some pub =>
    if pub.head? ≠ some 4 then throw .invalidPublicKey
    pure (BytesToAddress ((c.Keccak256 (pub.drop 1)).bytes.drop 12))

/-- {lit}`Sender`: the address recovered from the signature over {lit}`Signer.Hash`. -/
def Sender (c : Crypto) (tx : Transaction) : ExceptT SenderError Option Address := do
  let (r, s, v) ← (SignatureValues tx.data.signature : Option (Nat × Nat × Nat))
  recoverPlain c (SignerHash c tx) r s v

/-- {lit}`Sender` panics on a signature whose length is not 65. -/
theorem Sender_of_length_ne (c : Crypto) {tx : Transaction} (h : tx.data.signature.length ≠ 65) :
    (Sender c tx).run = none := by
  unfold Sender
  rw [SignatureValues_of_length_ne h]
  exact Lib.run_bind_panic Lib.run_lift_none

end Types
end Uranus
