import Uranus.Consensus.Dpos

/-!
# Validating headers and blocks ({lit}`core/validator`)

{lit}`ValidateHeader` accepts a header the ledger already holds at once; any other
must have a known parent, a time after the parent's, the difficulty the engine
computes for its time, a gas limit within the bounds, the next height, and, when
the seal is checked, the engine's {lit}`VerifySeal`.  {lit}`ValidateTxs` checks
that the block's parent and its state are known and that the transactions
hash to the header's transactions root; nothing compares the block's actions
with the header's actions root.

The ledger is a parameter, as the chain is for the engine, and so is
{lit}`DeriveRootHash`, the root of the trie that maps each index to the encoding
of its item.

Main results:

- Definitions {lit}`ValidateHeader` and {lit}`ValidateTxs`.
-/

namespace Uranus
namespace Validator

open Types Params Consensus

/-- The validator's errors, with the values their texts print. -/
inductive ValidatorError where
  /-- {lit}`block already known` -/
  | ErrKnownBlock
  /-- {lit}`pruned ancestor` -/
  | ErrPrunedAncestor
  /-- {lit}`unknown ancestor` -/
  | ErrUnknownAncestor
  /-- {lit}`timestamp less than or equal to parent's` -/
  | ErrBlockTime
  /-- {lit}`invalid block number` -/
  | ErrInvalidNumber
  /-- {lit}`extra-data too long: %d > %d` -/
  | ErrExtraDataTooLong (actual expected : UInt64)
  /-- {lit}`invalid difficulty: have %v, want %v` -/
  | ErrDifficulty (actual expected : Int)
  /-- {lit}`invalid max gaslimit: have %v, max %v` -/
  | ErrGasLimitTooBig (actual expected : UInt64)
  /-- {lit}`invalid gasUsed: have %d, gasLimit %d` -/
  | ErrGasUsed (actual expected : UInt64)
  /-- {lit}`invalid gaslimit: have %d, want %d += %d` -/
  | ErrGasLimit (actual expected extra : UInt64)
  /-- {lit}`transaction txs root hash mismatch: have %x, want %x` -/
  | ErrTxsRootHash (actual expected : Hash)
  /-- an error of the engine's seal check -/
  | engine (err : DposError)
deriving DecidableEq

/-- {lit}`ledger.Ledger`, as the validator reads it. -/
structure Ledger where
  GetHeader : Hash → Option BlockHeader
  GetBlock : Hash → Option Block
  HasBlock : Hash → Bool
  HasState : Hash → Bool

variable (e : Engine)

/-- {lit}`ValidateHeader`.  The engine's methods change its state, which is threaded
through: the genesis time {lit}`CalcDifficulty` caches, and the confirmed header
{lit}`VerifySeal` updates.  The Go parameter {lit}`seal`, a word Lean keeps, is
{lit}`checkSeal`. -/
def ValidateHeader (ledger : Ledger) (chain : IChainReader) (header : BlockHeader) (checkSeal : Bool) :
    ExceptT ValidatorError (StateT Dpos Option) Unit := do
  if (ledger.GetHeader (header.Hash e.c)).isSome then return
  let parent ← match ledger.GetHeader header.PreviousHash with
    | some parent => pure parent
    | none => throw .ErrUnknownAncestor
  if header.ExtraData.length > (MaxExtraDataSize + 65).toNat then
    throw (.ErrExtraDataTooLong (UInt64.ofNat header.ExtraData.length) (MaxExtraDataSize + 65))
  if header.TimeStamp ≤ parent.TimeStamp then throw .ErrBlockTime
  let expected ← (CalcDifficulty e chain (bigUint64 header.TimeStamp) : StateT Dpos Option Int)
  if expected ≠ header.Difficulty then throw (.ErrDifficulty header.Difficulty expected)
  let cap : UInt64 := 0x7fffffffffffffff
  if header.GasLimit > cap then throw (.ErrGasLimitTooBig header.GasLimit cap)
  if header.GasUsed > header.GasLimit then throw (.ErrGasUsed header.GasUsed header.GasLimit)
  -- the distance of the gas limits in {lit}`int64`, as the source computes it
  let diff := parent.GasLimit.toInt64 - header.GasLimit.toInt64
  let diff := if diff < 0 then diff * -1 else diff
  let limit := parent.GasLimit / GasLimitBoundDivisor
  if diff.toUInt64 ≥ limit ∨ header.GasLimit < MinGasLimit then
    throw (.ErrGasLimit header.GasLimit parent.GasLimit limit)
  if header.Height - parent.Height ≠ 1 then throw .ErrInvalidNumber
  if checkSeal then
    let r ← ((VerifySeal e chain header).run : StateT Dpos Option (Except DposError Unit))
    match r with
    | .ok () => pure ()
    | .error err => throw (.engine err)

/-- {lit}`ValidateTxs`: the block is new, its parent and the parent's state are known,
and the transactions hash to the header's root.  The actions are not read. -/
def ValidateTxs (DeriveRootHash : List Bytes → Hash) (ledger : Ledger) (block : Block) :
    Except ValidatorError Unit := do
  if ledger.HasBlock (block.Hash e.c) && ledger.HasState block.StateRoot then throw .ErrKnownBlock
  match ledger.GetBlock block.PreviousHash with
  | none => throw .ErrUnknownAncestor
  | some parent =>
    if !ledger.HasState parent.StateRoot then
      if !ledger.HasBlock (parent.Hash e.c) then throw .ErrUnknownAncestor
      throw .ErrPrunedAncestor
  let root := DeriveRootHash (block.transactions.map fun tx => Transaction.encoded tx.EncodeRLP)
  if root ≠ block.header.TransactionsRoot then
    throw (.ErrTxsRootHash root block.header.TransactionsRoot)

end Validator
end Uranus
