import Uranus.Core.Validator
import Uranus.Consensus.Confirm

/-!
# What binds a block to its slot

The schedule gives each validator {lit}`BlockRepeat` consecutive slots of
{lit}`BlockInterval` nanoseconds in every epoch.  {lit}`lookupValidator` finds the
validator of a time by dividing the time's offset within its epoch by the length
of a turn; the check that the time is a multiple of {lit}`BlockInterval` is
commented out, so every time inside a slot names the slot's validator.
{lit}`CalcDifficulty` likewise counts the whole intervals since the genesis.  What
{lit}`ValidateHeader` asks of a header's time beyond that is only to be later than
its parent's, so the validator of a slot can seal one block at its start and
another a nanosecond later, both of the slot's difficulty.

Main results:

- Theorem {lit}`lookupValidator_same_slot`: two non-negative times in one slot get
  the same answer from {lit}`lookupValidator`.
- Theorem {lit}`CalcDifficulty_same_slot`: over a genesis on a slot boundary, two
  times in one slot get the same difficulty.
- Theorem {lit}`ValidateHeader_two_in_one_slot`: a chain on which a header and its
  child, one nanosecond apart in one slot, both pass {lit}`ValidateHeader` with the
  seal checked.
-/

namespace Uranus
namespace Consensus

open Types Params Validator Lib

/-- The turn of a time within its epoch, computed as {lit}`lookupValidator` does it,
is the count of whole turns up to the time's slot, modulo the turns of an epoch. -/
theorem tmod_tdiv_eq_slot_turn {n a b c : Int} (hn : 0 ≤ n) (ha : 0 ≤ a) (hb : 0 ≤ b)
    (hc : 0 ≤ c) : (n.tmod (a * b * c)).tdiv (a * b) = ((n.tdiv a).tdiv b).tmod c := by
  lift n to Nat using hn
  lift a to Nat using ha
  lift b to Nat using hb
  lift c to Nat using hc
  have h : n % (a * b * c) / (a * b) = n / a / b % c := by
    rw [Nat.div_div_eq_div_mul, Nat.mod_mul_right_div_self]
  simp only [← Int.natCast_mul, Int.tmod_eq_emod_of_nonneg (Int.natCast_nonneg _),
    ← Int.natCast_emod, Int.natCast_tdiv_eq_ediv, ← Int.natCast_ediv]
  rw [h]

section Slot

variable (e : Engine) (hBI : 0 < e.o.BlockInterval) (hBR : 0 < e.o.BlockRepeat)
  (hN : 0 < e.o.MaxValidatorSize)

include hBI hBR hN in
/-- With no wrap, the length of a turn and of an epoch are the exact products. -/
theorem turn_epoch_of_fits
    (hfit : e.o.BlockInterval * e.o.BlockRepeat * e.o.MaxValidatorSize < 2 ^ 63) :
    mul64 e.o.BlockInterval e.o.BlockRepeat = e.o.BlockInterval * e.o.BlockRepeat ∧
      e.o.epochInterval = e.o.BlockInterval * e.o.BlockRepeat * e.o.MaxValidatorSize := by
  have hturn_pos : 0 < e.o.BlockInterval * e.o.BlockRepeat := Int.mul_pos hBI hBR
  have hturn_le : e.o.BlockInterval * e.o.BlockRepeat ≤
      e.o.BlockInterval * e.o.BlockRepeat * e.o.MaxValidatorSize :=
    le_mul_of_one_le_right hturn_pos.le (by omega)
  have hturn : mul64 e.o.BlockInterval e.o.BlockRepeat = e.o.BlockInterval * e.o.BlockRepeat :=
    mul64_of_fits (by omega) (by omega)
  refine ⟨hturn, ?_⟩
  rw [option.epochInterval, hturn]
  exact mul64_of_fits (by omega) hfit

include hBI hBR hN in
/-- The validator of a non-negative time depends on the time only through its slot, when
the length of an epoch fits in an {lit}`int64`. -/
theorem lookupValidator_same_slot
    (hfit : e.o.BlockInterval * e.o.BlockRepeat * e.o.MaxValidatorSize < 2 ^ 63)
    (ec : EpochContext) {now now' : Int} (h0 : 0 ≤ now)
    (h0' : 0 ≤ now') (hslot : now.tdiv e.o.BlockInterval = now'.tdiv e.o.BlockInterval) :
    lookupValidator e ec now = lookupValidator e ec now' := by
  obtain ⟨hturn, hepoch⟩ := turn_epoch_of_fits e hBI hBR hN hfit
  simp only [lookupValidator, hepoch, hturn, tmod_tdiv_eq_slot_turn h0 hBI.le hBR.le hN.le,
    tmod_tdiv_eq_slot_turn h0' hBI.le hBR.le hN.le, hslot]

/-- Once the genesis time is cached, {lit}`CalcDifficulty` counts the intervals since it
and changes nothing. -/
theorem CalcDifficulty_of_cached (chain : IChainReader) (time : UInt64) {d : Dpos}
    (hg : d.timeOfGenesisBlock ≠ -1) :
    CalcDifficulty e chain time d =
      some ((time.toInt64.toInt - d.timeOfGenesisBlock).tdiv e.o.BlockInterval + 1, d) := by
  change (CalcDifficulty e chain time).run d = _
  simp [CalcDifficulty, hg]

/-- Over a genesis on a slot boundary, two times after it in one slot get the same
difficulty. -/
theorem CalcDifficulty_same_slot (chain : IChainReader) {time time' : UInt64} {d : Dpos}
    (hg : d.timeOfGenesisBlock ≠ -1) (hdvd : e.o.BlockInterval ∣ d.timeOfGenesisBlock)
    (hle : d.timeOfGenesisBlock ≤ time.toInt64.toInt)
    (hle' : d.timeOfGenesisBlock ≤ time'.toInt64.toInt)
    (hslot : time.toInt64.toInt.tdiv e.o.BlockInterval = time'.toInt64.toInt.tdiv e.o.BlockInterval)
    (h0 : 0 ≤ d.timeOfGenesisBlock) :
    CalcDifficulty e chain time d = CalcDifficulty e chain time' d := by
  rw [CalcDifficulty_of_cached e chain time hg, CalcDifficulty_of_cached e chain time' hg]
  -- the intervals since the genesis are the slot less the genesis slot
  have hsub : ∀ t : Int, d.timeOfGenesisBlock ≤ t →
      (t - d.timeOfGenesisBlock).tdiv e.o.BlockInterval =
        t.tdiv e.o.BlockInterval - d.timeOfGenesisBlock / e.o.BlockInterval := by
    intro t ht
    rw [Int.tdiv_eq_ediv_of_nonneg (by omega), Int.tdiv_eq_ediv_of_nonneg (by omega),
      Int.sub_ediv_of_dvd _ hdvd]
  rw [hsub _ hle, hsub _ hle', hslot]

end Slot

/-! ## Two blocks in one slot

A chain whose only validator is the one key holder of {lit}`oneKeyCrypto`, on the
default schedule of {lit}`dpos.Option`: the genesis at time zero, a block one
interval later, and then two blocks by the same validator at the start of the
third slot and one nanosecond after it.  The headers are told apart by the byte
their seals are filled with. -/

/-- The default {lit}`dpos.Option`: intervals of 500 ms, turns of 12 blocks, three
validators, epochs delayed by two. -/
def defaultOption : option := ⟨500000000, 12, 3, 2, 72⟩

def zeroProto : DposContextProto := ⟨Hash.zero, Hash.zero, Hash.zero, Hash.zero, Hash.zero⟩

/-- A header of the example chain, of the difficulty of its time, sealed with bytes
{lit}`k`. -/
def slotHeader (k : UInt8) (prev : Hash) (miner : Address) (height time : Int) : BlockHeader :=
  ⟨prev, miner, Hash.zero, Hash.zero, Hash.zero, Hash.zero, some zeroProto, Bloom.zero,
    time / defaultOption.BlockInterval + 1, height, 5000000, 0, time, List.replicate 65 k,
    MinerNonce.zero⟩

def genesisHeader : BlockHeader := slotHeader 0 Hash.zero Address.zero 0 0

def firstHeader : BlockHeader :=
  slotHeader 1 (genesisHeader.Hash oneKeyCrypto) oneKeyAddress 1 500000000

def slotStartHeader : BlockHeader :=
  slotHeader 2 (firstHeader.Hash oneKeyCrypto) oneKeyAddress 2 1000000000

def slotLateHeader : BlockHeader :=
  slotHeader 3 (slotStartHeader.Hash oneKeyCrypto) oneKeyAddress 3 1000000001

/-- The header of a list with a hash. -/
def headerByHash (hs : List BlockHeader) (h : Hash) : Option BlockHeader :=
  hs.find? fun x => x.Hash oneKeyCrypto = h

/-- A ledger that holds the headers of a list, each with its state. -/
def listLedger (hs : List BlockHeader) : Ledger :=
  ⟨headerByHash hs, fun h => (headerByHash hs h).map (⟨·, [], []⟩),
    fun h => (headerByHash hs h).isSome, fun _ => true⟩

/-- The chain of the headers of a list, with a head. -/
def listChain (hs : List BlockHeader) (head : BlockHeader) : IChainReader where
  Config := ⟨none, 60, 500000000, 12, 3, [], 30, 259200⟩
  CurrentBlock := some ⟨head, [], []⟩
  GetHeader := headerByHash hs
  GetBlockByHeight := fun n => (hs.find? fun x => x.Height = (n.toNat : Int)).map (⟨·, [], []⟩)
  GetBlockByHash := fun h => (headerByHash hs h).map (⟨·, [], []⟩)

/-- The engine whose every epoch has the key holder of {lit}`oneKeyCrypto` as its only
validator. -/
def oneValidatorEngine : Engine :=
  ⟨oneKeyCrypto, defaultOption, fun _ _ => none, fun _ => true,
    fun _ => some ⟨some [oneKeyAddress]⟩, 8⟩

/-- On the default schedule, the start of the third slot and one nanosecond after it
have one validator, of an epoch with three. -/
theorem lookupValidator_slot_start_late :
    lookupValidator oneValidatorEngine ⟨some [Address.zero, oneKeyAddress, Address.zero]⟩ 1000000000 =
      lookupValidator oneValidatorEngine ⟨some [Address.zero, oneKeyAddress, Address.zero]⟩ 1000000001 :=
  lookupValidator_same_slot oneValidatorEngine (by decide) (by decide) (by decide) (by decide) _
    (by decide) (by decide) (by decide)

set_option maxRecDepth 10000 in
/-- The header at the start of the third slot passes the checks with the seal checked,
and after it, on the chain that holds it, so does its child one nanosecond later, of
the same slot and the same difficulty, at a time that is no slot boundary. -/
theorem ValidateHeader_two_in_one_slot :
    ((do
        ValidateHeader oneValidatorEngine (listLedger [genesisHeader, firstHeader])
          (listChain [genesisHeader, firstHeader] firstHeader) slotStartHeader true
        ValidateHeader oneValidatorEngine (listLedger [genesisHeader, firstHeader, slotStartHeader])
          (listChain [genesisHeader, firstHeader, slotStartHeader] slotStartHeader) slotLateHeader true :
        ExceptT ValidatorError (StateT Dpos Option) Unit).run startedDpos).map Prod.fst = some (.ok ()) ∧
    slotLateHeader.PreviousHash = slotStartHeader.Hash oneKeyCrypto ∧
    slotStartHeader.TimeStamp.tdiv defaultOption.BlockInterval =
      slotLateHeader.TimeStamp.tdiv defaultOption.BlockInterval ∧
    slotStartHeader.Difficulty = slotLateHeader.Difficulty ∧
    slotLateHeader.TimeStamp.tmod defaultOption.BlockInterval ≠ 0 :=
  ⟨by decide +kernel, rfl, by decide, by decide, by decide⟩

end Consensus
end Uranus
