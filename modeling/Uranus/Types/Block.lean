import Uranus.Types.Transaction

/-!
# Blocks ({lit}`types.Block`)

A block is its header, its actions and its transactions.  The header names its
parent by hash, and the hash of a header is the Keccak-256 sum of its encoding by
the reflection codec, so a chain is a list of headers each of which commits to
the one before.  An action asks for the release of an account's unlocked stake
after a delay; the executor runs the actions of a block before its
transactions.

The header's big integers are set in every header the chain holds, decoded or
built by the miner, so they are integers here and not pointers; the DPoS
context of a header is a pointer with the tag {lit}`rlp:"nil"`.

Main results:

- Definitions {lit}`BlockHeader.Hash` and {lit}`Block.Hash`: the header hash through
  the codec at {lit}`headerTy`.
- Definition {lit}`DposContextProto.Root`: the hash of the five DPoS trie roots.
- Definition {lit}`Confirmed.IsValidate`: a confirmation is signed by the address it
  names.
-/

namespace Uranus
namespace Types

open Rlp

/-- {lit}`bloom.Bloom`, a 256-byte array. -/
structure Bloom where
  bytes : Bytes
  length_bytes : bytes.length = 256
deriving DecidableEq

/-- The empty bloom. -/
def Bloom.zero : Bloom := ⟨List.replicate 256 0, List.length_replicate⟩

/-- {lit}`MinerNonce`, an 8-byte array. -/
structure MinerNonce where
  bytes : Bytes
  length_bytes : bytes.length = 8
deriving DecidableEq

def MinerNonce.zero : MinerNonce := ⟨List.replicate 8 0, List.length_replicate⟩

/-- {lit}`DposContextProto`: the roots of the five DPoS tries. -/
structure DposContextProto where
  EpochHash : Hash
  DelegateHash : Hash
  CandidateHash : Hash
  VoteHash : Hash
  MintCntHash : Hash
deriving DecidableEq

/-- {lit}`BlockHeader`. -/
structure BlockHeader where
  PreviousHash : Hash
  Miner : Address
  StateRoot : Hash
  ActionsRoot : Hash
  TransactionsRoot : Hash
  ReceiptsRoot : Hash
  DposContext : Option DposContextProto
  LogsBloom : Bloom
  Difficulty : Int
  Height : Int
  GasLimit : UInt64
  GasUsed : UInt64
  TimeStamp : Int
  ExtraData : Bytes
  Nonce : MinerNonce
deriving DecidableEq

/-- {lit}`Action`: the release of the stake a transaction unlocked, with the time it was
generated and the delay. -/
structure Action where
  TxHash : Hash
  Sender : Address
  GenTimeStamp : Option Int
  DelayDur : Option Int
deriving DecidableEq

/-- {lit}`Block`: the header, the actions and the transactions.  The hash and size
caches and the fields for relaying between peers are left out. -/
structure Block where
  header : BlockHeader
  actions : List Action
  transactions : List Transaction
deriving DecidableEq

/-! ## Encodings and hashes -/

/-- {lit}`utils.Hash` as the codec sees it. -/
def hashTy : Ty := .array 32 (.uint 8)

/-- {lit}`utils.Address` as the codec sees it. -/
def addressTy : Ty := .array 20 (.uint 8)

def dposContextProtoTy : Ty :=
  .struct [("EpochHash", Tags.none, hashTy), ("DelegateHash", Tags.none, hashTy),
    ("CandidateHash", Tags.none, hashTy), ("VoteHash", Tags.none, hashTy),
    ("MintCntHash", Tags.none, hashTy)]

/-- The Go type {lit}`BlockHeader` as the reflection codec sees it. -/
def headerTy : Ty :=
  .struct [("PreviousHash", Tags.none, hashTy), ("Miner", Tags.none, addressTy),
    ("StateRoot", Tags.none, hashTy), ("ActionsRoot", Tags.none, hashTy),
    ("TransactionsRoot", Tags.none, hashTy), ("ReceiptsRoot", Tags.none, hashTy),
    ("DposContext", ⟨true, false, false⟩, .ptr dposContextProtoTy),
    ("LogsBloom", Tags.none, .array 256 (.uint 8)), ("Difficulty", Tags.none, .bigInt),
    ("Height", Tags.none, .bigInt), ("GasLimit", Tags.none, .uint 64),
    ("GasUsed", Tags.none, .uint 64), ("TimeStamp", Tags.none, .bigInt),
    ("ExtraData", Tags.none, .slice (.uint 8)), ("Nonce", Tags.none, .array 8 (.uint 8))]

def DposContextProto.toVal (p : DposContextProto) : Val :=
  .list [.bytes p.EpochHash.bytes, .bytes p.DelegateHash.bytes, .bytes p.CandidateHash.bytes,
    .bytes p.VoteHash.bytes, .bytes p.MintCntHash.bytes]

/-- A {lit}`*DposContextProto` as a value. -/
def dposVal : Option DposContextProto → Val
  | none => .nil
  | some p => .ptr p.toVal

def BlockHeader.toVal (h : BlockHeader) : Val :=
  .list [.bytes h.PreviousHash.bytes, .bytes h.Miner.bytes, .bytes h.StateRoot.bytes,
    .bytes h.ActionsRoot.bytes, .bytes h.TransactionsRoot.bytes, .bytes h.ReceiptsRoot.bytes,
    dposVal h.DposContext, .bytes h.LogsBloom.bytes, .bigInt h.Difficulty, .bigInt h.Height,
    .uint h.GasLimit.toNat, .uint h.GasUsed.toNat, .bigInt h.TimeStamp, .bytes h.ExtraData,
    .bytes h.Nonce.bytes]

/-- {lit}`BlockHeader.Hash`: the hash of the header's encoding. -/
def BlockHeader.Hash (c : Crypto) (h : BlockHeader) : Hash := rlpHash c headerTy h.toVal

/-- {lit}`Block.Hash`: the hash of the header. -/
def Block.Hash (c : Crypto) (b : Block) : Hash := b.header.Hash c

/-- {lit}`DposContextProto.Root`: the Keccak-256 sum of the five roots, each written
by {lit}`rlp.Encode` to the same hasher. -/
def DposContextProto.Root (c : Crypto) (p : DposContextProto) : Hash :=
  c.Keccak256 ([p.EpochHash, p.DelegateHash, p.CandidateHash, p.VoteHash, p.MintCntHash].flatMap
    fun r => Transaction.encoded (EncodeToBytes hashTy (.bytes r.bytes)))

/-- Every header is a value of {lit}`headerTy`: the codec's reflection reaches it. -/
theorem BlockHeader.holds_toVal (h : BlockHeader) : headerTy.holds h.toVal = true := by
  cases hd : h.DposContext <;>
  simp [headerTy, BlockHeader.toVal, hd, dposVal, DposContextProto.toVal, dposContextProtoTy, hashTy,
    addressTy, Ty.holds, Ty.holds.holdsFields, Ty.isByte, h.PreviousHash.length_bytes,
    h.Miner.length_bytes, h.StateRoot.length_bytes, h.ActionsRoot.length_bytes,
    h.TransactionsRoot.length_bytes, h.ReceiptsRoot.length_bytes, h.LogsBloom.length_bytes,
    h.Nonce.length_bytes, Hash.length_bytes, h.GasLimit.toNat_lt, h.GasUsed.toNat_lt]

/-! ## Confirmations -/

/-- {lit}`Confirmed`: a signer's statement that it holds the block of a height and hash
as confirmed. -/
structure Confirmed where
  BlockHeight : UInt64
  BlockHash : Hash
  Address : Address
  Signature : Bytes
deriving DecidableEq

/-- The three values {lit}`Confirmed.Hash` puts in a {lit}`[]interface{}`, written as a
struct of their types. -/
def confirmedHashTy : Ty :=
  .struct [("BlockHeight", Tags.none, .uint 64), ("BlockHash", Tags.none, hashTy),
    ("Address", Tags.none, addressTy)]

/-- {lit}`Confirmed.Hash`: the hash the signer signs. -/
def Confirmed.Hash (c : Crypto) (m : Confirmed) : Hash :=
  rlpHash c confirmedHashTy
    (.list [.uint m.BlockHeight.toNat, .bytes m.BlockHash.bytes, .bytes m.Address.bytes])

/-- {lit}`IsValidate`: the signature recovers an uncompressed key whose address is the
one the message names. -/
def Confirmed.IsValidate (c : Crypto) (m : Confirmed) : Bool :=
  match c.EcrecoverToByte (m.Hash c) m.Signature with
  | none => false
  | some pub =>
    pub.head? == some 4 && m.Address == BytesToAddress ((c.Keccak256 (pub.drop 1)).bytes.drop 12)

/-! ## Accessors -/

namespace Block

variable (b : Block)

def Height : Int := b.header.Height
def Time : Int := b.header.TimeStamp
def PreviousHash : Uranus.Hash := b.header.PreviousHash
def StateRoot : Uranus.Hash := b.header.StateRoot
def GasLimit : UInt64 := b.header.GasLimit
def Miner : Address := b.header.Miner
def Transactions : List Transaction := b.transactions
def Actions : List Action := b.actions

/-- {lit}`BlockHeader()`: a copy of the header. -/
def BlockHeader : BlockHeader := b.header

end Block

end Types
end Uranus
