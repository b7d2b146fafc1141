import Uranus.Consensus.Schedule
import Uranus.Rlp.Codec

/-!
# Mint counts ({lit}`updateMintCnt`)

{lit}`Dpos.Finalize` counts, in the DPoS context's {lit}`MintCntTrie`, the blocks each
validator mints in each epoch.  The key is the epoch as eight big-endian bytes
followed by the validator's address, and the value is the count as eight big-endian
bytes.  A block of its parent's epoch writes one more than the trie holds, and the
first block of an epoch writes one.  {lit}`Finalize` touches the trie nowhere else, and
{lit}`kickoutValidator` reads these counts at the next epoch.

This module is the model over the trie's content, the map from keys to values.
Before it reads a count, {lit}`updateMintCnt` asks a {lit}`NodeIterator` started at the
epoch's bytes for a first entry; here the iterator is the parameter {lit}`seek`, and the
results ask of it only that it finds an entry when a stored key extends its start
({lit}`SeeksFrom`).  The code on the trie itself, with the iterator of
{lit}`common/mtp`, is modelled in {lit}`Uranus.Consensus.MintCntTrie`, which shows that
it refines this model.  The epoch interval is Go's {lit}`int64` product, which wraps.

Main results:

- Theorem {lit}`updateMintCnt_step`: one block adds one to the count of its epoch and
  miner, and changes no other count.
- Theorem {lit}`mintCntRun_counts`: along a chain of strictly increasing {lit}`int64`
  timestamps, from an empty trie, the entry of every epoch and validator is the
  number of the chain's blocks of that epoch mined by that validator.
-/

namespace Uranus
namespace Consensus

open Uranus.Types Uranus.Rlp

/-! ## The model -/

/-- {lit}`uint64(x)` of an {lit}`int64`. -/
def uint64 (x : Int) : Nat := (x % 2 ^ 64).toNat

/-- {lit}`binary.BigEndian.PutUint64`: eight bytes, the most significant first. -/
def PutUint64 (v : Nat) : Bytes := (List.range 8).reverse.map fun k => (v / 256 ^ k % 256).toUInt8

/-- {lit}`binary.BigEndian.Uint64`, which panics on fewer than eight bytes. -/
def Uint64 (b : Bytes) : Option Nat := if 8 ≤ b.length then some (bigEndian (b.take 8)) else none

/-- The content of the {lit}`MintCntTrie`. -/
abbrev MintCntTrie := Bytes → Option Bytes

/-- {lit}`append(epochBytes, validator.Bytes()...)`, the key of an epoch and a validator. -/
def mintKey (epoch : Int) (validator : Address) : Bytes :=
  PutUint64 (uint64 epoch) ++ validator.bytes

/-- The count a block of its parent's epoch writes: one more than the stored one, or
one if there is none. -/
def lastCnt (mintCnt : MintCntTrie) (key : Bytes) : Option Int :=
  match mintCnt key with
  | some cntBytes => (Uint64 cntBytes).map fun c => (c : Int) + 1
  | none => some 1

/-- {lit}`updateMintCnt`.  An epoch interval of zero is Go's division by zero.  The
counts are {lit}`int64` in the source; the wrap of their {lit}`+ 1` is taken again by
{lit}`uint64` modulo {lit}`2^64`, so they are integers here. -/
def updateMintCnt (o : option) (seek : MintCntTrie → Bytes → Bool)
    (parentBlockTime currentBlockTime : Int) (validator : Address) (mintCnt : MintCntTrie) :
    Option MintCntTrie :=
  if o.epochInterval = 0 then none
  else do
    let currentEpoch := parentBlockTime.tdiv o.epochInterval
    let newEpoch := currentBlockTime.tdiv o.epochInterval
    let cnt ← if currentEpoch = newEpoch ∧ seek mintCnt (PutUint64 (uint64 currentEpoch)) = true
      then lastCnt mintCnt (mintKey currentEpoch validator)
      else some 1
    some (Function.update mintCnt (mintKey newEpoch validator) (some (PutUint64 (uint64 cnt))))

/-- The mint counts of {lit}`Finalize` along a chain, each block on its parent's
context. -/
def mintCntRun (o : option) (seek : MintCntTrie → Bytes → Bool) :
    BlockHeader → List BlockHeader → MintCntTrie → Option MintCntTrie
  | _, [], mintCnt => some mintCnt
  | parent, header :: rest, mintCnt => do
    let mintCnt ← updateMintCnt o seek parent.TimeStamp header.TimeStamp header.Miner mintCnt
    mintCntRun o seek header rest mintCnt

/-! ## What the counts should be -/

/-- What the results ask of the iterator's first {lit}`Next`: it finds an entry when a
stored key extends its start. -/
def SeeksFrom (seek : MintCntTrie → Bytes → Bool) : Prop :=
  ∀ mintCnt start rest v, mintCnt (start ++ rest) = some v → seek mintCnt start = true

/-- A value of Go's {lit}`int64`. -/
def Int64 (x : Int) : Prop := -2 ^ 63 ≤ x ∧ x < 2 ^ 63

/-- The entry of a count: nothing for zero, else its eight bytes. -/
def mintCntValue (n : Nat) : Option Bytes := if n = 0 then none else some (PutUint64 n)

/-- The blocks of a list in an epoch mined by a validator. -/
def mintedIn (o : option) (blocks : List BlockHeader) (epoch : Int) (validator : Address) : Nat :=
  blocks.countP fun h => h.TimeStamp.tdiv o.epochInterval = epoch ∧ h.Miner = validator

/-- The trie holds the count {lit}`count e v` for every {lit}`int64` epoch {lit}`e`. -/
def Counts (mintCnt : MintCntTrie) (count : Int → Address → Nat) : Prop :=
  ∀ e v, Int64 e → mintCnt (mintKey e v) = mintCntValue (count e v)

/-! ## Counters and keys -/

/-- {lit}`PutUint64` writes eight bytes. -/
theorem length_PutUint64 (v : Nat) : (PutUint64 v).length = 8 := by
  simp [PutUint64]

/-- A counter reads back modulo {lit}`2^64`. -/
theorem Uint64_PutUint64 (v : Nat) : Uint64 (PutUint64 v) = some (v % 2 ^ 64) := by
  have hlen := length_PutUint64 v
  rw [Uint64, if_pos hlen.ge, List.take_of_length_le hlen.le, PutUint64, bigEndian_digits]
  norm_num

/-- A counter keeps only {lit}`v % 2^64`. -/
theorem PutUint64_mod (v : Nat) : PutUint64 (v % 2 ^ 64) = PutUint64 v := by
  unfold PutUint64
  refine List.map_congr_left fun k hk => ?_
  have hk8 : k < 8 := by simpa using hk
  -- a byte below the eighth one does not see the bits from the sixty-fourth on
  have hsplit : (2 : Nat) ^ 64 = 256 ^ k * (256 * 256 ^ (7 - k)) := by
    rw [← pow_succ', ← pow_add, show k + (7 - k + 1) = 8 by omega]
    norm_num
  rw [hsplit, Nat.mod_mul_right_div_self, Nat.mod_mul_right_mod]

/-- Two counts written alike are equal modulo {lit}`2^64`. -/
theorem PutUint64_injective {a b : Nat} (h : PutUint64 a = PutUint64 b) :
    a % 2 ^ 64 = b % 2 ^ 64 := by
  have hab := congrArg Uint64 h
  rw [Uint64_PutUint64, Uint64_PutUint64] at hab
  exact Option.some.inj hab

/-- Two {lit}`int64` epochs and two validators with one key are the same. -/
theorem mintKey_inj {e e' : Int} {v v' : Address} (he : Int64 e) (he' : Int64 e')
    (h : mintKey e v = mintKey e' v') : e = e' ∧ v = v' := by
  obtain ⟨hepoch, hval⟩ := List.append_inj h (by rw [length_PutUint64, length_PutUint64])
  have hmod := PutUint64_injective hepoch
  unfold uint64 at hmod
  unfold Int64 at he he'
  exact ⟨by omega, Address.ext hval⟩

/-- The epoch of an {lit}`int64` time is an {lit}`int64`. -/
theorem Int64_tdiv {t I : Int} (hI : 0 < I) (ht : Int64 t) : Int64 (t.tdiv I) := by
  have habs : (t.tdiv I).natAbs ≤ t.natAbs := by
    rw [Int.natAbs_tdiv]
    exact Nat.div_le_self _ _
  have hpos : 0 ≤ t → 0 ≤ t.tdiv I := fun h => Int.tdiv_nonneg h hI.le
  have hneg : t ≤ 0 → t.tdiv I ≤ 0 := fun h => by simpa using Int.tdiv_le_tdiv hI h
  unfold Int64 at ht ⊢
  omega

/-- The count written after the count {lit}`n` is the entry of {lit}`n + 1`. -/
theorem PutUint64_succ (n : Nat) : some (PutUint64 (uint64 (((n % 2 ^ 64 : Nat) : Int) + 1))) =
    mintCntValue (n + 1) := by
  have hcast : uint64 (((n % 2 ^ 64 : Nat) : Int) + 1) = (n + 1) % 2 ^ 64 := by
    unfold uint64
    omega
  rw [hcast, PutUint64_mod, mintCntValue, if_neg (Nat.succ_ne_zero n)]

/-- A validator with no count yet starts at one. -/
theorem lastCnt_of_none {mintCnt : MintCntTrie} {key : Bytes} (h : mintCnt key = none) :
    lastCnt mintCnt key = some 1 := by
  rw [lastCnt, h]

/-- A stored count is read back and increased by one. -/
theorem lastCnt_of_put {mintCnt : MintCntTrie} {key : Bytes} {n : Nat}
    (h : mintCnt key = some (PutUint64 n)) :
    lastCnt mintCnt key = some (((n % 2 ^ 64 : Nat) : Int) + 1) := by
  rw [lastCnt, h]
  simp [Uint64_PutUint64]

/-- The blocks counted after one more block. -/
theorem mintedIn_append_singleton (o : option) (blocks : List BlockHeader) (h : BlockHeader)
    (e : Int) (v : Address) :
    mintedIn o (blocks ++ [h]) e v =
      mintedIn o blocks e v + if h.TimeStamp.tdiv o.epochInterval = e ∧ h.Miner = v then 1 else 0 := by
  simp [mintedIn, List.countP_append]

/-! ## One block -/

section Step

variable {o : option} {seek : MintCntTrie → Bytes → Bool}

/-- The count {lit}`updateMintCnt` writes is one more than the one the trie holds for the
block's epoch and miner, when the block is of its parent's epoch or the trie holds
none for the block's epoch. -/
theorem updateMintCnt_cnt (hseek : SeeksFrom seek) {E N : Int} {validator : Address}
    {mintCnt : MintCntTrie} {n : Nat}
    (hM : mintCnt (mintKey N validator) = mintCntValue n) (hfirst : E ≠ N → n = 0) :
    (if E = N ∧ seek mintCnt (PutUint64 (uint64 E)) = true
      then lastCnt mintCnt (mintKey E validator) else some 1) =
      some (((n % 2 ^ 64 : Nat) : Int) + 1) := by
  by_cases hn : n = 0
  · -- nothing stored: both branches write one
    subst hn
    rw [mintCntValue, if_pos rfl] at hM
    split
    · next h =>
      rw [h.1, lastCnt_of_none hM]
      rfl
    · rfl
  · -- a count is stored, so the block is of its parent's epoch and the iterator finds it
    have hEN : E = N := by
      by_contra hne
      exact hn (hfirst hne)
    subst hEN
    rw [mintCntValue, if_neg hn] at hM
    have hs : seek mintCnt (PutUint64 (uint64 E)) = true := hseek _ _ _ _ hM
    rw [if_pos ⟨rfl, hs⟩, lastCnt_of_put hM]

/-- One block: the count of its epoch and miner goes up by one, and no other count
changes. -/
theorem updateMintCnt_step (hseek : SeeksFrom seek) (hI : 0 < o.epochInterval)
    {parent current : Int} {validator : Address} {mintCnt : MintCntTrie}
    {count : Int → Address → Nat} (hc : Int64 current)
    (hM : Counts mintCnt count)
    (hfirst : parent.tdiv o.epochInterval ≠ current.tdiv o.epochInterval →
      count (current.tdiv o.epochInterval) validator = 0) :
    ∃ mintCnt', updateMintCnt o seek parent current validator mintCnt = some mintCnt' ∧
      Counts mintCnt' fun e v =>
        count e v + if current.tdiv o.epochInterval = e ∧ validator = v then 1 else 0 := by
  have hN := Int64_tdiv hI hc
  have hcnt := updateMintCnt_cnt hseek (hM _ validator hN) hfirst
  have hrun : updateMintCnt o seek parent current validator mintCnt =
      some (Function.update mintCnt (mintKey (current.tdiv o.epochInterval) validator)
        (some (PutUint64 (uint64
          (((count (current.tdiv o.epochInterval) validator % 2 ^ 64 : Nat) : Int) + 1))))) := by
    rw [updateMintCnt, if_neg hI.ne']
    dsimp only
    -- the do block runs its continuation in both branches of the count
    split
    · next h =>
      rw [if_pos h] at hcnt
      rw [hcnt]
      rfl
    · next h =>
      rw [if_neg h, Option.some.injEq] at hcnt
      rw [← hcnt]
      rfl
  refine ⟨_, hrun, fun e v he => ?_⟩
  dsimp only
  · by_cases hk : current.tdiv o.epochInterval = e ∧ validator = v
    · obtain ⟨rfl, rfl⟩ := hk
      rw [Function.update_self, if_pos ⟨rfl, rfl⟩, PutUint64_succ]
    · have hne : mintKey e v ≠ mintKey (current.tdiv o.epochInterval) validator := fun h =>
        hk (mintKey_inj hN he h.symm)
      rw [Function.update_of_ne hne, if_neg hk, Nat.add_zero]
      exact hM e v he

end Step

/-! ## A chain -/

section Run

variable {o : option} {seek : MintCntTrie → Bytes → Bool}

/-- The run lemma: from a trie that counts the blocks {lit}`done`, all at or before the
parent, the rest of the chain leaves a trie that counts {lit}`done ++ rest`. -/
theorem mintCntRun_counts_from (hseek : SeeksFrom seek) (hI : 0 < o.epochInterval) :
    ∀ (rest : List BlockHeader) (parent : BlockHeader) (done : List BlockHeader)
      (mintCnt : MintCntTrie), (∀ h ∈ rest, Int64 h.TimeStamp) →
      List.IsChain (fun a b => a.TimeStamp < b.TimeStamp) (parent :: rest) →
      (∀ h ∈ done, h.TimeStamp ≤ parent.TimeStamp) → Counts mintCnt (mintedIn o done) →
      ∃ mintCnt', mintCntRun o seek parent rest mintCnt = some mintCnt' ∧
        Counts mintCnt' (mintedIn o (done ++ rest))
  | [], _, done, mintCnt, _, _, _, hM => ⟨mintCnt, rfl, by rw [List.append_nil]; exact hM⟩
  | h :: rest, parent, done, mintCnt, hts, hchain, hdone, hM => by
    obtain ⟨hlt, hchain'⟩ := List.isChain_cons_cons.mp hchain
    have hh : Int64 h.TimeStamp := hts h List.mem_cons_self
    -- a block of a later epoch than its parent is the first of its epoch
    have hfirst : parent.TimeStamp.tdiv o.epochInterval ≠ h.TimeStamp.tdiv o.epochInterval →
        mintedIn o done (h.TimeStamp.tdiv o.epochInterval) h.Miner = 0 := by
      intro hne
      have hle := Int.tdiv_le_tdiv hI hlt.le
      refine List.countP_eq_zero.mpr fun b hb hcount => ?_
      have hb' := Int.tdiv_le_tdiv hI (hdone b hb)
      simp only [decide_eq_true_eq] at hcount
      omega
    obtain ⟨mintCnt₁, h₁, hM₁⟩ := updateMintCnt_step hseek hI hh hM hfirst
    have hM₁' : Counts mintCnt₁ (mintedIn o (done ++ [h])) := by
      intro e v he
      rw [mintedIn_append_singleton]
      exact hM₁ e v he
    have hdone' : ∀ b ∈ done ++ [h], b.TimeStamp ≤ h.TimeStamp := by
      intro b hb
      rcases List.mem_append.mp hb with hb | hb
      · exact (hdone b hb).trans hlt.le
      · rw [List.mem_singleton.mp hb]
    obtain ⟨mintCnt₂, h₂, hM₂⟩ := mintCntRun_counts_from hseek hI rest h (done ++ [h]) mintCnt₁
      (fun b hb => hts b (List.mem_cons_of_mem _ hb)) hchain' hdone' hM₁'
    refine ⟨mintCnt₂, ?_, ?_⟩
    · rw [mintCntRun, h₁]
      exact h₂
    · rwa [List.append_assoc, List.singleton_append] at hM₂

/-- Mint counts are exact: along a chain of strictly increasing {lit}`int64` timestamps
from the genesis, each block finalized on its parent's context from an empty trie, the
entry of every epoch and validator is the number of the chain's blocks of that epoch
mined by that validator. -/
theorem mintCntRun_counts (hseek : SeeksFrom seek) (hI : 0 < o.epochInterval)
    (genesis : BlockHeader) (chain : List BlockHeader)
    (hts : ∀ h ∈ chain, Int64 h.TimeStamp)
    (hmono : List.IsChain (fun a b => a.TimeStamp < b.TimeStamp) (genesis :: chain)) :
    ∃ mintCnt, mintCntRun o seek genesis chain (fun _ => none) = some mintCnt ∧
      ∀ e v, Int64 e → mintCnt (mintKey e v) = mintCntValue (mintedIn o chain e v) := by
  have hempty : Counts (fun _ => none) (mintedIn o []) := fun e v _ => rfl
  exact mintCntRun_counts_from hseek hI chain genesis [] _ hts hmono
    (fun _ hh => absurd hh List.not_mem_nil) hempty

end Run

end Consensus
end Uranus
