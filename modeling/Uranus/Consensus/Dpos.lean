import Uranus.Lib.Lru
import Uranus.Lib.Quantile
import Uranus.Types.Block

/-!
# The DPoS engine ({lit}`consensus/dpos`)

The engine keeps two confirmed headers.  {lit}`confirmedBlockHeader` follows the
head of the chain: it moves to a block once enough distinct miners have
produced the blocks from it to the head.  {lit}`bftConfirmedBlockHeader` follows
the confirmations that signers broadcast: each one received, whose signature
recovers the address it names and whose block is on the chain, is kept in an
LRU cache of {lit}`MaxValidatorSize` entries keyed by the address, and the header
is set to the block at the {lit}`(n-1)/3`-th lowest height of the {lit}`n` cached
ones.  The engine also checks the seal of a header: the signer recovered from
it must be the miner, and the miner the validator the schedule of the header's
epoch names for its time.

Every function is the Go method with the engine's state passed explicitly.  The
parts of the engine that never change are the environment {lit}`Engine`: the
crypto primitives, the schedule {lit}`dpos.Option`, the account signer, what the
engine reads of the DPoS tries, and the fuel of the loops that walk back along
the chain.  A Go panic is {lean}`none`, and so is a walk that runs out of fuel;
an error keeps the changes made before it, as the Go fields do.

Main results:

- Definitions {lit}`handleConfirmed` and {lit}`storeBFTConfirmedBlockHeader`: how a
  received confirmation moves the BFT confirmed header.
- Definitions {lit}`updateConfirmedBlockHeader` and {lit}`storeConfirmedBlockHeader`:
  how the confirmed header follows the head.
- Definitions {lit}`lookupValidator`, {lit}`ecrecover` and {lit}`VerifySeal`: the
  schedule and the seal.
-/

namespace Uranus
namespace Consensus

open Types Rlp Params Lib

/-- Go's {lit}`int64` product: the exact product wrapped onto {lit}`[-2^63, 2^63)`. -/
def mul64 (a b : Int) : Int := (a * b).bmod (2 ^ 64)

/-- A product that fits in an {lit}`int64` is not wrapped. -/
theorem mul64_of_fits {a b : Int} (hlo : -2 ^ 63 ≤ a * b) (hhi : a * b < 2 ^ 63) :
    mul64 a b = a * b :=
  Int.bmod_eq_of_le (by norm_num; omega) (by norm_num; omega)

/-- {lit}`dpos.Option`, the schedule, set from the chain configuration when the node
starts.  Times are in nanoseconds; the fields are {lit}`int64`s. -/
structure option where
  BlockInterval : Int
  BlockRepeat : Int
  MaxValidatorSize : Int
  DelayEpcho : Int
  MaxConfirmedNum : Int
deriving DecidableEq

namespace option

variable (o : option)

/-- {lit}`consensusSize`: more than two thirds of the validators. -/
def consensusSize : Int := (o.MaxValidatorSize * 2).tdiv 3 + 1

/-- {lit}`epochInterval`: the time of one turn of every validator, an {lit}`int64`
product that wraps. -/
def epochInterval : Int := mul64 (mul64 o.BlockInterval o.BlockRepeat) o.MaxValidatorSize

end option

/-- {lit}`consensus.IChainReader`: the chain as the engine reads it. -/
structure IChainReader where
  Config : ChainConfig
  CurrentBlock : Option Block
  GetHeader : Hash → Option BlockHeader
  GetBlockByHeight : UInt64 → Option Block
  GetBlockByHash : Hash → Option Block

/-- What the engine reads of a DPoS context: {lit}`GetValidators`, the list stored in
its epoch trie, {lean}`none` when it does not decode. -/
structure EpochContext where
  validators : Option (List Address)

/-- {lit}`IsDpos`: the validators decode and there is not exactly one of them. -/
def EpochContext.IsDpos (ec : EpochContext) : Bool :=
  match ec.validators with
  | some vs => vs.length != 1
  | none => false

/-- The engine's errors. -/
inductive DposError where
  | ErrUnknownBlock
  | ErrUnknownAncestor
  /-- {lit}`extra-data 65 byte suffix signature missing` -/
  | errMissingSignature
  /-- the error of {lit}`EcrecoverToByte` -/
  | ecrecoverFailed
  /-- {lit}`mismatch block signer and validator` -/
  | ErrMismatchSignerAndValidator
  /-- {lit}`invalid block validator` -/
  | ErrInvalidBlockValidator
  /-- {lit}`nil block header returned` -/
  | ErrNilBlockHeader
  /-- {lit}`failed to lookup validator` -/
  | lookupFailed
  /-- {lit}`failed to decode validators: %s` -/
  | decodeValidators
  /-- an error of {lit}`state.New` or {lit}`NewDposContextFromProto` -/
  | contextUnavailable
  /-- the error of {lit}`chainDb.Get` for a missing key -/
  | notFound
deriving DecidableEq

/-- The environment of the engine, which no method changes. -/
structure Engine where
  c : Crypto
  o : option
  /-- {lit}`signFn` with the engine's passphrase: a signature of a hash, or an error -/
  signFn : Address → Hash → Option Bytes
  /-- {lit}`state.New` at a state root succeeds -/
  hasState : Hash → Bool
  /-- {lit}`NewDposContextFromProto` over the state database -/
  contextOf : DposContextProto → Option EpochContext
  /-- the bound of the loops that walk back along the chain -/
  fuel : Nat

/-- The two entries of {lit}`chainDb` the engine writes: the hashes of the confirmed
headers. -/
structure ChainDb where
  confirmedBlockHead : Option Bytes
  bftConfirmedBlockHead : Option Bytes
deriving DecidableEq

/-- The state of {lit}`Dpos` and of the package variable {lit}`timeOfGenesisBlock`.  The
cache {lit}`bftConfirmeds` is nil until the goroutine of {lit}`Init` creates it, and
stays nil if its size is not positive. -/
structure Dpos where
  confirmedBlockHeader : Option BlockHeader
  bftConfirmedBlockHeader : Option BlockHeader
  bftConfirmeds : Option (Lru Address UInt64)
  coinbase : Address
  chainDb : ChainDb
  /-- the confirmations posted to the event mux, the latest first -/
  posted : List Confirmed
  timeOfGenesisBlock : Int

/-- A method that may fail, keeping the changes it made, or panic. -/
abbrev DposM := ExceptT DposError (StateT Dpos Option)

variable (e : Engine)

/-- {lit}`big.Int.Uint64`: the low 64 bits of the absolute value. -/
def bigUint64 (x : Int) : UInt64 := UInt64.ofNat x.natAbs

/-! ## Confirmations received -/

/-- {lit}`storeBFTConfirmedBlockHeader`: read every cached height, sort them, and take
the block at the {lit}`(n-1)/3`-th lowest.  The error it returns is that of
{lit}`chainDb.Put`, which the database here never gives. -/
def storeBFTConfirmedBlockHeader (chain : IChainReader) : StateT Dpos Option Unit := do
  let d ← get
  let lru ← (d.bftConfirmeds : Option (Lru Address UInt64))
  let read := lru.getAll lru.Keys
  set { d with bftConfirmeds := some read.2 }
  let irreversibles := read.1
  if irreversibles = [] then return
  let sorted := sortAsc (· ≤ ·) irreversibles
  let h := sorted.getD ((sorted.length - 1) / 3) 0
  -- the header of a height the chain does not hold is a nil pointer
  let blk ← (chain.GetBlockByHeight h : Option Block)
  modify fun d => { d with
    bftConfirmedBlockHeader := some blk.header
    chainDb := { d.chainDb with bftConfirmedBlockHead := some (blk.header.Hash e.c).bytes } }

/-- {lit}`handleConfirmed`: a confirmation whose signature is valid and whose block is on
the chain is cached under its address. -/
def handleConfirmed (chain : IChainReader) (confirmed : Confirmed) : StateT Dpos Option Unit := do
  if confirmed.IsValidate e.c then
    match chain.GetBlockByHeight confirmed.BlockHeight with
    | some blk =>
      if blk.Hash e.c = confirmed.BlockHash then
        let d ← get
        let lru ← (d.bftConfirmeds : Option (Lru Address UInt64))
        set { d with bftConfirmeds := some (lru.Add confirmed.Address confirmed.BlockHeight) }
        storeBFTConfirmedBlockHeader e chain
    | none => pure ()

/-! ## Walking back along the chain -/

/-- The loop of {lit}`EpchoBlockHeader`: go back to the first header at or before the
time, or to the genesis.  A parent the chain does not hold is a nil header, which
the next round reads. -/
def epochWalk (chain : IChainReader) (timestamp : Int) : Nat → BlockHeader → Option BlockHeader
  | 0, _ => none
  | fuel + 1, header =>
    if header.TimeStamp ≤ timestamp ∨ bigUint64 header.Height = 0 then some header
    else do
      let parent ← chain.GetHeader header.PreviousHash
      epochWalk chain timestamp fuel parent

/-- {lit}`EpchoBlockHeader`: the header whose state holds the schedule for a time, which
is {lit}`DelayEpcho` epochs before it. -/
def EpchoBlockHeader (chain : IChainReader) (timestamp : Int) (lastBlock : Block) :
    Option BlockHeader :=
  epochWalk chain (timestamp - e.o.DelayEpcho * e.o.epochInterval) e.fuel lastBlock.header

/-- The loop of {lit}`updateConfirmedBlockHeader`: go back from the head, collecting the
miners, until there are {lit}`consensusSize` distinct ones or the walk passes the
confirmed height.  It returns the header to confirm, if any. -/
def confirmWalk (chain : IChainReader) (confirmedHeight : Int) :
    Nat → List Address → BlockHeader → Option (Except DposError (Option BlockHeader))
  | 0, _, _ => none
  | fuel + 1, miners, cur =>
    if confirmedHeight ≤ cur.Height then
      let miners := if cur.Miner ∈ miners then miners else cur.Miner :: miners
      if (miners.length : Int) ≥ e.o.consensusSize then
        some (.ok (if confirmedHeight ≠ cur.Height then some cur else none))
      else
        match chain.GetBlockByHash cur.PreviousHash with
        | none => some (.error .ErrNilBlockHeader)
        | some blk => confirmWalk chain confirmedHeight fuel miners blk.header
    else some (.ok none)

/-! ## The confirmed header -/

/-- {lit}`loadConfirmedBlockHeader`: the header whose hash the database holds. -/
def loadConfirmedBlockHeader (chain : IChainReader) (d : Dpos) : Except DposError BlockHeader :=
  match d.chainDb.confirmedBlockHead with
  | none => .error .notFound
  | some key =>
    match chain.GetBlockByHash (BytesToHash key) with
    | none => .error .ErrNilBlockHeader
    | some blk => .ok blk.header

/-- {lit}`storeConfirmedBlockHeader`: when the engine's own account is a validator of
the last block's context, sign a confirmation of the confirmed header, post it and
cache it; then store the header's hash. -/
def storeConfirmedBlockHeader (chain : IChainReader) (lastBlock : Block) : StateT Dpos Option Unit := do
  let header ← (EpchoBlockHeader e chain lastBlock.Time lastBlock : Option BlockHeader)
  if e.hasState header.StateRoot then
    -- the context of the last block, opened over the epoch header's database
    let proto ← (lastBlock.header.DposContext : Option DposContextProto)
    if let some ec := e.contextOf proto then
      let validators := ec.validators.getD []
      for validator in validators do
        let d ← get
        if validator = d.coinbase then
          let confirmedHeader ← (d.confirmedBlockHeader : Option BlockHeader)
          let confirmed : Confirmed := ⟨bigUint64 confirmedHeader.Height,
            confirmedHeader.Hash e.c, d.coinbase, []⟩
          if let some sighash := e.signFn d.coinbase (confirmed.Hash e.c) then
            let confirmed := { confirmed with Signature := sighash }
            let lru ← (d.bftConfirmeds : Option (Lru Address UInt64))
            set { d with posted := confirmed :: d.posted,
                         bftConfirmeds := some (lru.Add d.coinbase confirmed.BlockHeight) }
            storeBFTConfirmedBlockHeader e chain
  let d ← get
  let confirmedHeader ← (d.confirmedBlockHeader : Option BlockHeader)
  set { d with chainDb := { d.chainDb with confirmedBlockHead := some (confirmedHeader.Hash e.c).bytes } }

/-- {lit}`updateConfirmedBlockHeader`.  Before DPoS is active the confirmed header is
the head; after, it moves back from the head to the first header from which
{lit}`consensusSize` distinct miners produced the blocks up to the head. -/
def updateConfirmedBlockHeader (chain : IChainReader) (dpos : Bool) : DposM Unit := do
  let d ← get
  if d.confirmedBlockHeader.isNone then
    let header ← match loadConfirmedBlockHeader chain d with
      | .ok header => pure header
      | .error _ => do
        -- the copy of the genesis header, which panics when the chain has no genesis
        let genesis ← ((chain.GetBlockByHeight 0 : Option Block) : DposM Block)
        pure genesis.header
    set { d with confirmedBlockHeader := some header }
  if !dpos then
    if let some blk := chain.CurrentBlock then
      modify fun d => { d with confirmedBlockHeader := some blk.header }
      (storeConfirmedBlockHeader e chain blk : StateT Dpos Option Unit)
    return
  let d ← get
  let confirmed ← ((d.confirmedBlockHeader : Option BlockHeader) : DposM BlockHeader)
  let head ← ((chain.CurrentBlock : Option Block) : DposM Block)
  let r ← ((confirmWalk e chain confirmed.Height e.fuel [] head.header :
    Option (Except DposError (Option BlockHeader))) : DposM (Except DposError (Option BlockHeader)))
  match r with
  | .error err => throw err
  | .ok none => pure ()
  | .ok (some header) =>
    modify fun d => { d with confirmedBlockHeader := some header }
    (storeConfirmedBlockHeader e chain head : StateT Dpos Option Unit)

/-! ## The schedule and the seal -/

/-- {lit}`lookupValidator`: the validator whose turn holds a time.  Before DPoS is active
the turns cycle through the validators; after, a turn past the last validator has
the zero address.  The alignment of the time to a block interval is not checked:
the check is commented out in the source.  The remainder by the epoch interval and
the quotient by the length of a turn, an {lit}`int64` product, panic when it is zero. -/
def lookupValidator (ec : EpochContext) (now : Int) : ExceptT DposError Option Address := do
  if e.o.epochInterval = 0 then (none : Option Address) else
  let offset := now.tmod e.o.epochInterval
  if mul64 e.o.BlockInterval e.o.BlockRepeat = 0 then (none : Option Address) else
  let offset := offset.tdiv (mul64 e.o.BlockInterval e.o.BlockRepeat)
  let validators ← match ec.validators with
    | some vs => pure vs
    | none => throw .decodeValidators
  let validatorSize : Int := validators.length
  if validatorSize = 0 then throw .lookupFailed
  let offset ← if !ec.IsDpos then pure (offset.tmod validatorSize)
    else if offset ≥ validatorSize then
      return Address.zero
    else pure offset
  -- a negative index panics
  if h : 0 ≤ offset ∧ offset.toNat < validators.length then
    pure (validators.get ⟨offset.toNat, h.2⟩)
  else (none : Option Address)

/-- The values {lit}`sigHash` puts in a {lit}`[]interface{}`: the header without its
actions root and without the seal, and with the hash of its DPoS roots. -/
def sigHashTy : Ty :=
  .struct [("PreviousHash", Tags.none, hashTy), ("Miner", Tags.none, addressTy),
    ("StateRoot", Tags.none, hashTy), ("TransactionsRoot", Tags.none, hashTy),
    ("ReceiptsRoot", Tags.none, hashTy), ("LogsBloom", Tags.none, .array 256 (.uint 8)),
    ("Difficulty", Tags.none, .bigInt), ("Height", Tags.none, .bigInt),
    ("GasLimit", Tags.none, .uint 64), ("GasUsed", Tags.none, .uint 64),
    ("TimeStamp", Tags.none, .bigInt), ("ExtraData", Tags.none, .slice (.uint 8)),
    ("Nonce", Tags.none, .array 8 (.uint 8)), ("DposContext", Tags.none, hashTy)]

/-- The number of bytes of the seal at the end of the extra data. -/
def extraSeal : Nat := 65

/-- {lit}`sigHash`: the hash the miner signs.  Extra data shorter than the seal, and a
nil DPoS context, panic. -/
def sigHash (header : BlockHeader) : Option Hash := do
  if header.ExtraData.length < extraSeal then none
  let proto ← header.DposContext
  pure (rlpHash e.c sigHashTy
    (.list [.bytes header.PreviousHash.bytes, .bytes header.Miner.bytes,
      .bytes header.StateRoot.bytes, .bytes header.TransactionsRoot.bytes,
      .bytes header.ReceiptsRoot.bytes, .bytes header.LogsBloom.bytes,
      .bigInt header.Difficulty, .bigInt header.Height, .uint header.GasLimit.toNat,
      .uint header.GasUsed.toNat, .bigInt header.TimeStamp,
      .bytes (header.ExtraData.take (header.ExtraData.length - extraSeal)),
      .bytes header.Nonce.bytes, .bytes (proto.Root e.c).bytes]))

/-- {lit}`ecrecover`: the address whose key signed the header. -/
def ecrecover (header : BlockHeader) : ExceptT DposError Option Address := do
  if header.ExtraData.length < extraSeal then throw .errMissingSignature
  let signature := header.ExtraData.drop (header.ExtraData.length - extraSeal)
  let hash ← (sigHash e header : Option Hash)
  match e.c.EcrecoverToByte hash signature with
  | none => throw .ecrecoverFailed
  | some pubkey =>
    -- slicing an empty key panics
    if pubkey = [] then (none : Option Address)
    else pure (BytesToAddress ((e.c.Keccak256 (pubkey.drop 1)).bytes.drop 12))

/-- {lit}`CalcDifficulty`: the number of block intervals since the genesis, plus one.
The genesis time is read from the chain on the first call and kept. -/
def CalcDifficulty (chain : IChainReader) (time : UInt64) : StateT Dpos Option Int := do
  let d ← get
  if d.timeOfGenesisBlock = -1 then
    let genesis ← (chain.GetBlockByHeight 0 : Option Block)
    set { d with timeOfGenesisBlock := genesis.Time }
  let d ← get
  pure ((time.toInt64.toInt - d.timeOfGenesisBlock).tdiv e.o.BlockInterval + 1)

/-- {lit}`VerifySeal`: the parent is known, the seal's signer is the miner, and the
miner is the validator the schedule of the epoch header names for the header's
time; then the confirmed header is updated. -/
def VerifySeal (chain : IChainReader) (header : BlockHeader) : DposM Unit := do
  let parent ← match chain.GetBlockByHash header.PreviousHash with
    | some parent =>
      if parent.Hash e.c = header.PreviousHash then pure parent else throw .ErrUnknownAncestor
    | none => throw .ErrUnknownAncestor
  let signer ← ((ecrecover e header).run : Option (Except DposError Address))
  let signer ← match signer with
    | .ok signer => pure signer
    | .error err => throw err
  if signer ≠ header.Miner then throw .ErrMismatchSignerAndValidator
  let epochHeader ← ((EpchoBlockHeader e chain header.TimeStamp parent : Option BlockHeader) :
    DposM BlockHeader)
  if !e.hasState epochHeader.StateRoot then throw .contextUnavailable
  let proto ← ((epochHeader.DposContext : Option DposContextProto) : DposM DposContextProto)
  let ec ← match e.contextOf proto with
    | some ec => pure ec
    | none => throw .contextUnavailable
  let validator ← ((lookupValidator e ec header.TimeStamp).run : Option (Except DposError Address))
  let validator ← match validator with
    | .ok validator => pure validator
    | .error err => throw err
  if validator ≠ header.Miner then throw .ErrInvalidBlockValidator
  updateConfirmedBlockHeader e chain ec.IsDpos

end Consensus
end Uranus
