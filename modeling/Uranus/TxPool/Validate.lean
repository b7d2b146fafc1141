import Uranus.State.StateDB
import Uranus.Types.TransactionRlp

/-!
# Validating a transaction for the pool ({lit}`validateTx`, {lit}`IntrinsicGas`)

{lit}`TxPool.validateTx` runs, in order, the checks of {lit}`Validate`, the size
limit, the sign of the value, the block gas limit and the sender's signature,
and then the checks that need the sender: the genesis candidate, the minimum gas
price, the nonce, the funds and the intrinsic gas.  The sender is recovered by
{lit}`Sender`, whose {lit}`SignatureValues` panics on a signature whose length is
not 65, and a panic on the pool's goroutine stops the node.

{lit}`IntrinsicGas` adds the gas of the payload's bytes in {lit}`uint64`, after
guards that reject every sum that would wrap.

Main results:

- Theorem {lit}`validateTx_signature_length_panics`: every transaction that passes
  the checks before the sender and whose signature is not 65 bytes long makes
  {lit}`validateTx` panic, in every pool.
- Theorem {lit}`validateTx_decoded_panics`: a transaction the decoder accepts from
  nine bytes of the wire is one.
- Theorem {lit}`IntrinsicGas_eq`: the gas {lit}`IntrinsicGas` returns is the exact
  sum, with no wrap-around, and it fails exactly when the sum does not fit.
-/

namespace Uranus
namespace TxPool

open Types Params Rlp Lib

/-- The errors of the pool, with their texts. -/
inductive PoolError where
  /-- {lit}`out of gas` -/
  | ErrOutOfGas
  /-- {lit}`invalid sender` -/
  | ErrInvalidSender
  /-- {lit}`nonce too low` -/
  | ErrNonceTooLow
  /-- {lit}`transaction underpriced` -/
  | ErrUnderPriced
  /-- {lit}`insufficient funds for gas * price + value` -/
  | ErrInsufficientFunds
  /-- {lit}`insufficient locked funds for value` -/
  | ErrInsufficientLockedFunds
  /-- {lit}`insufficient fee funds for gas * price` -/
  | ErrInsufficientFeeFunds
  /-- {lit}`intrinsic gas too low` -/
  | ErrIntrinsicGas
  /-- {lit}`exceeds block gas limit` -/
  | ErrGasLimit
  /-- {lit}`negative value` -/
  | ErrNegativeValue
  /-- {lit}`oversized data` -/
  | ErrOversizedData
  /-- {lit}`genesis candidate not allow logout` -/
  | genesisLogout
  /-- an error of {lit}`Validate` -/
  | validate (e : ValidateError)
deriving DecidableEq

/-- {lit}`math.MaxUint64`. -/
def MaxUint64 : UInt64 := 0xFFFFFFFFFFFFFFFF

/-- The part of {lit}`IntrinsicGas` after the base gas: the gas of the payload's
non-zero and zero bytes, each sum guarded against wrapping. -/
def dataGas (gas : UInt64) (data : Bytes) : Except PoolError UInt64 :=
  if data.length = 0 then .ok gas
  else
    let nz : UInt64 := (data.filter (· ≠ 0)).length.toUInt64
    -- make sure we don't exceed uint64 for all data combinations
    if (MaxUint64 - gas) / TxDataNonZeroGas < nz then .error .ErrOutOfGas
    else
      let gas := gas + nz * TxDataNonZeroGas
      let z := data.length.toUInt64 - nz
      if (MaxUint64 - gas) / TxDataZeroGas < z then .error .ErrOutOfGas
      else .ok (gas + z * TxDataZeroGas)

/-- {lit}`IntrinsicGas`: nothing for the two delegation types; otherwise the base gas
of a call or a creation and the gas of the payload. -/
def IntrinsicGas (data : Bytes) (tp : TxType) (contractCreation : Bool) : Except PoolError UInt64 :=
  if tp = Delegate ∨ tp = UnDelegate then .ok 0
  else dataGas (if contractCreation then TxGasContractCreation else TxGas) data

/-- The gas of a payload as a number: 68 for each byte that is not zero and 4 for
each zero. -/
def payloadGas (data : Bytes) : Nat :=
  68 * (data.filter (· ≠ 0)).length + 4 * (data.length - (data.filter (· ≠ 0)).length)

/-- A number below {lit}`2^64` is kept by the round trip through {lit}`UInt64`. -/
theorem toNat_toUInt64_of_lt {n : Nat} (h : n < 2 ^ 64) : n.toUInt64.toNat = n := by
  rw [Nat.toUInt64, UInt64.toNat_ofNat', Nat.mod_eq_of_lt h]

/-- The guards of {lit}`dataGas` fail exactly when the sum exceeds {lit}`MaxUint64`;
otherwise the sum has not wrapped. -/
theorem dataGas_eq (gas : UInt64) (data : Bytes) (hlen : data.length < 2 ^ 64) :
    dataGas gas data =
      if gas.toNat + payloadGas data ≤ MaxUint64.toNat then .ok (gas.toNat + payloadGas data).toUInt64
      else .error .ErrOutOfGas := by
  have hN : (data.filter (· ≠ 0)).length ≤ data.length := List.length_filter_le _ _
  have hg : gas.toNat < 2 ^ 64 := gas.toNat_lt
  have hmax : MaxUint64.toNat = 2 ^ 64 - 1 := rfl
  unfold dataGas payloadGas
  have hnz := toNat_toUInt64_of_lt (show (data.filter (· ≠ 0)).length < 2 ^ 64 by omega)
  have hlenU := toNat_toUInt64_of_lt hlen
  -- the counts of bytes, as numbers
  generalize (data.filter (· ≠ 0)).length = N at *
  generalize data.length = L at *
  have hZ : TxDataZeroGas.toNat = 4 := rfl
  have hNZ : TxDataNonZeroGas.toNat = 68 := rfl
  by_cases hL : L = 0
  · rw [if_pos hL, if_pos (by omega)]
    refine congrArg Except.ok (UInt64.toNat.inj ?_)
    rw [toNat_toUInt64_of_lt (by omega)]
    omega
  · rw [if_neg hL]
    simp only [UInt64.lt_iff_toNat_lt, UInt64.toNat_div, hnz, hZ, hNZ, hmax]
    have hsub1 : (MaxUint64 - gas).toNat = 2 ^ 64 - 1 - gas.toNat :=
      UInt64.toNat_sub_of_le _ _ (UInt64.le_iff_toNat_le.mpr (by omega))
    rw [hsub1]
    by_cases g1 : (2 ^ 64 - 1 - gas.toNat) / 68 < N
    · -- the gas of the non-zero bytes would wrap
      rw [if_pos g1, if_neg (by omega)]
    · rw [if_neg g1]
      have hgas : (gas + N.toUInt64 * TxDataNonZeroGas).toNat = gas.toNat + 68 * N := by
        rw [UInt64.toNat_add, UInt64.toNat_mul, hnz, hNZ]
        omega
      have hsub2 : (MaxUint64 - (gas + N.toUInt64 * TxDataNonZeroGas)).toNat =
          2 ^ 64 - 1 - (gas.toNat + 68 * N) :=
        (UInt64.toNat_sub_of_le _ _ (UInt64.le_iff_toNat_le.mpr (by omega))).trans (by omega)
      have hz : (L.toUInt64 - N.toUInt64).toNat = L - N :=
        (UInt64.toNat_sub_of_le _ _ (UInt64.le_iff_toNat_le.mpr (by omega))).trans (by omega)
      rw [hsub2, hz]
      by_cases g2 : (2 ^ 64 - 1 - (gas.toNat + 68 * N)) / 4 < L - N
      · -- the gas of the zero bytes would wrap
        rw [if_pos g2, if_neg (by omega)]
      · rw [if_neg g2, if_pos (by omega)]
        refine congrArg Except.ok (UInt64.toNat.inj ?_)
        rw [toNat_toUInt64_of_lt (by omega), UInt64.toNat_add, UInt64.toNat_mul, hgas, hz, hZ]
        omega

/-- {lit}`IntrinsicGas` never wraps: it returns the base gas plus the payload's gas,
or {lit}`ErrOutOfGas` exactly when that sum exceeds {lit}`MaxUint64`. -/
theorem IntrinsicGas_eq (data : Bytes) (tp : TxType) (contractCreation : Bool)
    (hlen : data.length < 2 ^ 64) :
    IntrinsicGas data tp contractCreation =
      if tp = Delegate ∨ tp = UnDelegate then .ok 0
      else
        let base := if contractCreation then 53000 else 21000
        if base + payloadGas data ≤ MaxUint64.toNat then .ok (base + payloadGas data).toUInt64
        else .error .ErrOutOfGas := by
  unfold IntrinsicGas
  split
  · rfl
  · rw [dataGas_eq _ _ hlen]
    cases contractCreation <;> rfl

/-- The intrinsic gas of a two-byte call payload, one byte zero. -/
theorem IntrinsicGas_eq_call :
    [1, 0].length < 2 ^ 64 ∧
    IntrinsicGas [1, 0] Binary false =
      if Binary = Delegate ∨ Binary = UnDelegate then .ok 0
      else
        let base := if false then 53000 else 21000
        if base + payloadGas [1, 0] ≤ MaxUint64.toNat then .ok (base + payloadGas [1, 0]).toUInt64
        else .error .ErrOutOfGas :=
  ⟨by decide, IntrinsicGas_eq [1, 0] Binary false (by decide)⟩

example : IntrinsicGas [1, 0] Binary false = .ok 21072 := by decide

/-- What {lit}`validateTx` reads of the pool: the chain configuration, the minimum gas
price (a nil price panics when compared), the state at the chain's head and its
gas limit.  The head state's reads fill its object cache, which changes no value a
later read returns, and the cache is dropped here. -/
structure PoolEnv where
  chainconfig : ChainConfig
  gasPrice : Option Int
  currentState : State.StateDB
  curMaxGas : UInt64

/-- {lit}`validateTx`. -/
def validateTx (c : Crypto) (env : PoolEnv) (tx : Transaction) : ExceptT PoolError Option Unit := do
  ExceptT.adapt .validate (tx.Validate env.chainconfig)
  -- heuristic limit, reject transactions over 32KB
  if tx.Size > 32 * 1024 then throw .ErrOversizedData
  let value ← (tx.Value : Option Int)
  if value < 0 then throw .ErrNegativeValue
  if env.curMaxGas < tx.Gas then throw .ErrGasLimit
  let sender ← ExceptT.adapt (fun _ => .ErrInvalidSender) (Sender c tx)
  if tx.txType = LogoutCandidate ∧ sender = BytesToAddress env.chainconfig.genesisCandidate then
    throw .genesisLogout
  let minPrice ← (env.gasPrice : Option Int)
  let price ← (tx.GasPrice : Option Int)
  if minPrice > price then throw .ErrUnderPriced
  if (env.currentState.GetNonce sender).1 > tx.Nonce then throw .ErrNonceTooLow
  if tx.txType = UnDelegate then
    let locked ← ((env.currentState.GetLockedBalance sender).1 : Option Int)
    if locked < value then throw .ErrInsufficientLockedFunds
    let balance ← ((env.currentState.GetBalance sender).1 : Option Int)
    if balance < price * tx.Gas.toNat then throw .ErrInsufficientFeeFunds
  else
    let balance ← ((env.currentState.GetBalance sender).1 : Option Int)
    let cost ← (tx.Cost : Option Int)
    if balance < cost then throw .ErrInsufficientFunds
  match IntrinsicGas tx.Payload tx.txType ((tx.Tos.getD []).length = 0 ∧ tx.txType = Binary) with
  | .error e => throw e
  | .ok intrGas => if tx.Gas < intrGas then throw .ErrIntrinsicGas

/-- Every transaction that passes the checks before the sender, and whose signature
is not 65 bytes long, makes {lit}`validateTx` panic in {lit}`SignatureValues`,
whatever the pool holds. -/
theorem validateTx_signature_length_panics (c : Crypto) (env : PoolEnv) (tx : Transaction)
    (hv : (tx.Validate env.chainconfig).run = some (.ok ())) (hsize : tx.Size ≤ 32 * 1024)
    {value : Int} (hval : tx.Value = some value) (hpos : 0 ≤ value) (hgas : tx.Gas ≤ env.curMaxGas)
    (hsig : tx.data.signature.length ≠ 65) : (validateTx c env tx).run = none := by
  unfold validateTx
  rw [run_bind_ok (run_adapt_ok hv), if_neg (by omega), hval, run_bind_ok (run_lift_some value),
    if_neg (by omega), if_neg (by simpa using hgas)]
  exact run_bind_panic (run_adapt_panic (Sender_of_length_ne c hsig))

/-- The nine bytes {lit}`C8 80 80 80 80 C0 80 80 80` decode, with any fuel, to a
transaction with an empty signature, which makes {lit}`validateTx` panic in every
pool and for every primitive. -/
theorem validateTx_decoded_panics :
    ∃ tx, (∀ fuel, DecodeBytesTransaction fuel [0xC8, 0x80, 0x80, 0x80, 0x80, 0xC0, 0x80, 0x80, 0x80] =
      .ok tx) ∧ ∀ c env, (validateTx c env tx).run = none := by
  let tx : Transaction :=
    ⟨⟨Binary, 0, some 0, 0, some [], some 0, [], []⟩, some (ListSize 8)⟩
  have hdec : DecodeBytesTransaction 0 [0xC8, 0x80, 0x80, 0x80, 0x80, 0xC0, 0x80, 0x80, 0x80] = .ok tx := by
    decide +kernel
  refine ⟨tx, fun fuel => DecodeBytesTransaction_of_fuel_le (Nat.zero_le fuel) hdec (by simp),
    fun c env => ?_⟩
  -- a binary transaction without recipients passes Validate, whatever the configuration
  have hv : (tx.Validate env.chainconfig).run = some (.ok ()) := rfl
  exact validateTx_signature_length_panics c env tx hv (by decide) rfl (Int.le_refl 0) UInt64.zero_le
    (by decide)

end TxPool
end Uranus
