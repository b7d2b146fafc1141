import Uranus.Consensus.MintCnt
import Uranus.Lib.FoldM

/-!
# The epoch transition ({lit}`EpochContext.tryElect`)

{lit}`Finalize` runs {lit}`tryElect` for every block.  For each epoch from the parent's
to the block's, it adjusts the weights of the validators by their mint counts
({lit}`kickoutValidator`), counts the votes of the candidates, and, when there are
enough of them with enough stake, elects the validators of the next epoch: the
candidates sorted by score and address, at most {lit}`MaxValidatorSize` of them,
shuffled with a seed of the parent's hash and the epoch.

The state is what these functions read and write of the DPoS context: the validator
list of the epoch trie, the candidate trie as a map from addresses to decoded
{lit}`CandidateInfo` values, and the content of the mint count trie.  What they reach
only through an iterator or a library is a parameter of the environment: the
{lit}`CountVotes` walk over the candidate and delegate tries, the entries the prefix
iterator over the mint counts yields, the {lit}`math/rand` shuffle, and
{lit}`Address.String`, the checksummed hex the sort compares.

A kickout reads the counts of the epoch it is given, and the loop always gives it
the parent's epoch, once for each round in which the prefix iterator over that
epoch's counts still has an entry.

Main results:

- Theorem {lit}`kickoutValidator_spec`: one kickout adjusts the weight of each
  validator once, by its count in the epoch it is given.
- Theorem {lit}`electLoop_keeps_candidates`: once the iterator is exhausted, or from
  the genesis epoch, the loop adjusts no weight.
- Theorem {lit}`electLoop_single_entry`: with one entry of the parent epoch left, the
  weights are adjusted once, however many epochs have elapsed.
- Theorem {lit}`tryElect_repeats_parent_counts`: after a gap, the weights are adjusted
  by the parent epoch's counts once per entry of that epoch, not once per elapsed
  epoch by that epoch's counts.
-/

namespace Uranus
namespace Consensus

open Uranus.Types Uranus.Lib

/-! ## The model -/

/-- {lit}`types.CandidateInfo`. -/
structure CandidateInfo where
  Addr : Address
  Weight : Nat
  DegradeTime : Nat
deriving DecidableEq

/-- The errors of the epoch transition. -/
inductive ElectError where
  /-- {lit}`failed to get validator: %s` -/
  | failedToGetValidator
  /-- {lit}`no validator could be kickout` -/
  | noValidatorToKickout
  /-- {lit}`invalid candidate to delegate` -/
  | invalidCandidate
  /-- an error of {lit}`CountVotes`, such as {lit}`no candidates` -/
  | countVotes
deriving DecidableEq

/-- What the epoch transition reads and writes of a DPoS context. -/
structure ElectState where
  /-- {lit}`GetValidators`, {lean}`none` when the list does not decode -/
  validators : Option (List Address)
  /-- the candidate trie, by address -/
  candidates : Address → Option CandidateInfo
  mintCnt : MintCntTrie

/-- What the epoch transition reads and does not change. -/
structure ElectEnv where
  o : option
  MinStartQuantity : Int
  /-- the package variable {lit}`timeOfFirstBlock` -/
  timeOfFirstBlock : Int
  /-- {lit}`CountVotes`: the score of every candidate, and the total stake -/
  CountVotes : ElectState → Except ElectError (List (Address × Int) × Int)
  /-- the entries a {lit}`PrefixIterator` over the mint counts yields for a prefix -/
  prefixEntries : MintCntTrie → Bytes → List (Bytes × Bytes)
  /-- {lit}`Address.String` -/
  addressString : Address → String
  /-- {lit}`rand.New(rand.NewSource(seed))` and its swaps, from the parent and the epoch -/
  shuffle : BlockHeader → Int → List Address → List Address

/-- {lit}`int64(u)` of a {lit}`uint64`. -/
def int64 (u : Nat) : Int := if u < 2 ^ 63 then u else (u : Int) - 2 ^ 64

/-- The count {lit}`kickoutValidator` reads: zero when there is no entry. -/
def mintCntOf (mintCnt : MintCntTrie) (key : Bytes) : Option Int :=
  match mintCnt key with
  | some cntBytes => (Uint64 cntBytes).map int64
  | none => some 0

/-- {lit}`epochDuration/Option.BlockInterval/Option.MaxValidatorSize/2`, half the blocks
a validator mints in an epoch; a zero divisor is Go's division by zero. -/
def kickoutBound (o : option) (epochDuration : Int) : Option Int :=
  if o.BlockInterval = 0 ∨ o.MaxValidatorSize = 0 then none
  else some (((epochDuration.tdiv o.BlockInterval).tdiv o.MaxValidatorSize).tdiv 2)

/-- The weight of a validator with {lit}`cnt` blocks: ten less, down to ten, below the
bound, and ten more, up to a hundred, otherwise. -/
def adjustWeight (bound timestamp cnt : Int) (info : CandidateInfo) : CandidateInfo :=
  if cnt < bound then
    if info.Weight > 10 then { info with Weight := info.Weight - 10, DegradeTime := uint64 timestamp }
    else info
  else if info.Weight < 100 then
    { info with Weight := info.Weight + 10, DegradeTime := uint64 timestamp }
  else info

/-- One round of the loop of {lit}`kickoutValidator`: the validator's count in the epoch,
its candidate entry, and its new weight written back. -/
def kickoutOne (o : option) (epochDuration timestamp epoch : Int) (s : ElectState)
    (validator : Address) : ExceptT ElectError Option ElectState := do
  let cnt ← (mintCntOf s.mintCnt (mintKey epoch validator) : Option Int)
  let candidateInfo ← match s.candidates validator with
    | some info => pure info
    | none => throw .invalidCandidate
  let bound ← (kickoutBound o epochDuration : Option Int)
  pure { s with
    candidates := Function.update s.candidates validator
      (some (adjustWeight bound timestamp cnt candidateInfo)) }

/-- {lit}`epochDuration`: an interval, or less for the first epoch, which starts at the
first block. -/
def epochDuration (o : option) (timeOfFirstBlock TimeStamp : Int) : Int :=
  if TimeStamp - timeOfFirstBlock < o.epochInterval then TimeStamp - timeOfFirstBlock
  else o.epochInterval

/-- {lit}`kickoutValidator`.  Nothing is ever added to {lit}`needKickoutValidators`, so the
loop that kicks candidates out never runs. -/
def kickoutValidator (o : option) (timeOfFirstBlock TimeStamp timestamp epoch : Int)
    (s : ElectState) : ExceptT ElectError Option ElectState := do
  let validators ← match s.validators with
    | some vs => pure vs
    | none => throw .failedToGetValidator
  if validators = [] then throw .noValidatorToKickout
  validators.foldlM (kickoutOne o (epochDuration o timeOfFirstBlock TimeStamp) timestamp epoch) s

/-- {lit}`sortableAddresses.Less`: the higher score first, then the lower address string. -/
def Less (addressString : Address → String) (p q : Address × Int) : Bool :=
  if p.2 < q.2 then false
  else if p.2 > q.2 then true
  else decide (addressString p.1 < addressString q.1)

/-- The validators one round elects: the candidates in the order of {lit}`Less`, at most
{lit}`MaxValidatorSize` of them, shuffled. -/
def electValidators (env : ElectEnv) (parent : BlockHeader) (i : Int)
    (votes : List (Address × Int)) : List Address :=
  let candidates := votes.insertionSort fun p q => Less env.addressString q p = false
  let candidates :=
    if (candidates.length : Int) > env.o.MaxValidatorSize then
      candidates.take env.o.MaxValidatorSize.toNat
    else candidates
  env.shuffle parent i (candidates.map Prod.fst)

/-- The loop of {lit}`tryElect` over the epochs {lit}`i` to come, with the entries the
prefix iterator has left.  A kickout takes the next entry of the iterator; a round
without enough votes or stake ends {lit}`tryElect`. -/
def electLoop (env : ElectEnv) (prevEpochIsGenesis : Bool) (TimeStamp prevEpoch : Int)
    (parent : BlockHeader) :
    Nat → Int → List (Bytes × Bytes) → ElectState → ExceptT ElectError Option ElectState
  | 0, _, _, s => pure s
  | k + 1, i, iter, s => do
    -- if !prevEpochIsGenesis && iter.Next()
    let (s, iter) ← match prevEpochIsGenesis, iter with
      | false, _ :: rest => do
        let s ← kickoutValidator env.o env.timeOfFirstBlock TimeStamp TimeStamp prevEpoch s
        pure (s, rest)
      | _, iter => pure (s, iter)
    let (votes, total) ← ExceptT.mk (some (env.CountVotes s))
    if (votes.length : Int) < env.o.consensusSize ∨ total < env.MinStartQuantity then return s
    electLoop env prevEpochIsGenesis TimeStamp prevEpoch parent k (i + 1) iter
      { s with validators := some (electValidators env parent i votes) }

/-- {lit}`tryElect`.  From the genesis epoch, only the epoch before the block's is
elected. -/
def tryElect (env : ElectEnv) (TimeStamp : Int) (genesis parent : BlockHeader)
    (s : ElectState) : ExceptT ElectError Option ElectState :=
  if env.o.epochInterval = 0 then ExceptT.lift none
  else
    let genesisEpoch := genesis.TimeStamp.tdiv env.o.epochInterval
    let prevEpoch := parent.TimeStamp.tdiv env.o.epochInterval
    let currentEpoch := TimeStamp.tdiv env.o.epochInterval
    let prevEpochIsGenesis := decide (prevEpoch = genesisEpoch)
    let prevEpoch :=
      if prevEpochIsGenesis = true ∧ prevEpoch < currentEpoch then currentEpoch - 1 else prevEpoch
    let iter := env.prefixEntries s.mintCnt (PutUint64 (uint64 prevEpoch))
    electLoop env prevEpochIsGenesis TimeStamp prevEpoch parent (currentEpoch - prevEpoch).toNat
      prevEpoch iter s

/-! ## A kickout -/

section Kickout

variable {o : option} {epochDur timestamp epoch : Int}

/-- One round of a kickout writes the validator's adjusted weight. -/
theorem kickoutOne_spec {s : ElectState} {v : Address} {info : CandidateInfo} {cnt bound : Int}
    (hc : mintCntOf s.mintCnt (mintKey epoch v) = some cnt) (hv : s.candidates v = some info)
    (hb : kickoutBound o epochDur = some bound) :
    (kickoutOne o epochDur timestamp epoch s v).run = some (.ok { s with
      candidates := Function.update s.candidates v (some (adjustWeight bound timestamp cnt info)) }) := by
  simp [kickoutOne, hc, hv, hb, Except.map]

/-- A kickout over distinct validators, each with a candidate entry and a count in the
epoch, adjusts each one's weight once by that count, and changes nothing else. -/
theorem kickoutValidator_spec {timeOfFirstBlock TimeStamp : Int} {s : ElectState}
    {vs : List Address} {bound : Int} (hvs : s.validators = some vs) (hne : vs ≠ [])
    (hnd : vs.Nodup) (hb : kickoutBound o (epochDuration o timeOfFirstBlock TimeStamp) = some bound)
    (cnt : Address → Int) (hcnt : ∀ v ∈ vs, mintCntOf s.mintCnt (mintKey epoch v) = some (cnt v))
    (info : Address → CandidateInfo) (hinfo : ∀ v ∈ vs, s.candidates v = some (info v)) :
    ∃ s', (kickoutValidator o timeOfFirstBlock TimeStamp timestamp epoch s).run = some (.ok s') ∧
      s'.validators = s.validators ∧ s'.mintCnt = s.mintCnt ∧
      ∀ a, s'.candidates a =
        if a ∈ vs then some (adjustWeight bound timestamp (cnt a) (info a)) else s.candidates a := by
  -- the invariant of the loop: the validators done so far are adjusted, the others not
  let P : List Address → ElectState → Prop := fun done s' =>
    s'.validators = s.validators ∧ s'.mintCnt = s.mintCnt ∧
      ∀ a, s'.candidates a =
        if a ∈ done then some (adjustWeight bound timestamp (cnt a) (info a)) else s.candidates a
  have hstart : P [] s := ⟨rfl, rfl, fun a => by simp⟩
  -- one round, at a validator that no earlier round has seen
  have hstep : ∀ pre a post b, pre ++ a :: post = [] ++ vs → P pre b →
      ∃ b'', (kickoutOne o (epochDuration o timeOfFirstBlock TimeStamp) timestamp epoch b a).run =
        some (.ok b'') ∧ P (pre ++ [a]) b'' := by
    intro pre a post b heq hP
    obtain ⟨hval, hmint, hcand⟩ := hP
    rw [List.nil_append] at heq
    have hmem : a ∈ vs := by simp [← heq]
    have hfresh : a ∉ pre := by
      rw [← heq] at hnd
      exact fun h => (List.nodup_append.mp hnd).2.2 a h a List.mem_cons_self rfl
    have hb₁ : b.candidates a = some (info a) := by
      rw [hcand, if_neg hfresh]
      exact hinfo a hmem
    have hc₁ : mintCntOf b.mintCnt (mintKey epoch a) = some (cnt a) := by
      rw [hmint]
      exact hcnt a hmem
    refine ⟨_, kickoutOne_spec hc₁ hb₁ hb, hval, hmint, fun x => ?_⟩
    dsimp only
    by_cases hx : x = a
    · subst hx
      simp
    · rw [Function.update_of_ne hx, hcand]
      simp [hx]
  obtain ⟨s', hrun, hP⟩ := foldlM_exceptT_inv
    (kickoutOne o (epochDuration o timeOfFirstBlock TimeStamp) timestamp epoch) P vs [] s hstart
    hstep
  refine ⟨s', ?_, hP⟩
  rw [kickoutValidator]
  simpa [hvs, hne] using hrun

end Kickout

/-! ## The loop -/

section Loop

variable {env : ElectEnv} {g : Bool} {TimeStamp prevEpoch : Int} {parent : BlockHeader}
  {k : Nat} {i : Int} {iter : List (Bytes × Bytes)} {s : ElectState}

/-- A round without a kickout, once the votes are counted: it ends the loop without
enough votes or stake, and else sets the elected validators and goes on. -/
theorem electLoop_skip_ok (hg : g = true ∨ iter = []) {votes : List (Address × Int)} {total : Int}
    (hc : env.CountVotes s = .ok (votes, total)) :
    (electLoop env g TimeStamp prevEpoch parent (k + 1) i iter s).run =
      if (votes.length : Int) < env.o.consensusSize ∨ total < env.MinStartQuantity then
        some (.ok s)
      else (electLoop env g TimeStamp prevEpoch parent k (i + 1) iter
        { s with validators := some (electValidators env parent i votes) }).run := by
  rcases hg with rfl | rfl
  · simp [electLoop, hc]
    split <;> rfl
  · cases g <;> simp [electLoop, hc] <;> split <;> rfl

/-- A round without a kickout whose count of votes fails. -/
theorem electLoop_skip_error (hg : g = true ∨ iter = []) {e : ElectError}
    (hc : env.CountVotes s = .error e) :
    (electLoop env g TimeStamp prevEpoch parent (k + 1) i iter s).run = some (.error e) := by
  rcases hg with rfl | rfl
  · simp [electLoop, hc]
  · cases g <;> simp [electLoop, hc]

/-- A round with a kickout, once the kickout is done and the votes are counted. -/
theorem electLoop_kickout_ok {entry : Bytes × Bytes} {s₁ : ElectState}
    (hk : (kickoutValidator env.o env.timeOfFirstBlock TimeStamp TimeStamp prevEpoch s).run =
      some (.ok s₁))
    {votes : List (Address × Int)} {total : Int} (hc : env.CountVotes s₁ = .ok (votes, total)) :
    (electLoop env false TimeStamp prevEpoch parent (k + 1) i (entry :: iter) s).run =
      if (votes.length : Int) < env.o.consensusSize ∨ total < env.MinStartQuantity then
        some (.ok s₁)
      else (electLoop env false TimeStamp prevEpoch parent k (i + 1) iter
        { s₁ with validators := some (electValidators env parent i votes) }).run := by
  simp [electLoop, ExceptT.run_bind, hk, hc]
  split <;> rfl

end Loop

/-- Once the iterator over the parent epoch's counts is exhausted, or when the parent's
epoch is the genesis one, no round of the loop adjusts a weight: the loop only sets
validators. -/
theorem electLoop_keeps_candidates (env : ElectEnv) (g : Bool) (TimeStamp prevEpoch : Int)
    (parent : BlockHeader) :
    ∀ (k : Nat) (i : Int) (iter : List (Bytes × Bytes)) (s s' : ElectState),
      (g = true ∨ iter = []) →
      (electLoop env g TimeStamp prevEpoch parent k i iter s).run = some (.ok s') →
      s'.candidates = s.candidates ∧ s'.mintCnt = s.mintCnt
  | 0, _, _, s, s', _, h => by
    simp [electLoop] at h
    subst h
    exact ⟨rfl, rfl⟩
  | k + 1, i, iter, s, s', hg, h => by
    cases hc : env.CountVotes s with
    | error e =>
      rw [electLoop_skip_error hg hc] at h
      simp at h
    | ok r =>
      obtain ⟨votes, total⟩ := r
      rw [electLoop_skip_ok hg hc] at h
      split at h
      · -- too few votes: the round ends the loop where it started
        simp only [Option.some.injEq, Except.ok.injEq] at h
        subst h
        exact ⟨rfl, rfl⟩
      · -- an election sets only the validators
        exact electLoop_keeps_candidates env g TimeStamp prevEpoch parent k (i + 1) iter
          { s with validators := some (electValidators env parent i votes) } s' hg h

/-- With one entry left in the iterator over the parent epoch's counts, the loop adjusts
the weights once, by the kickout of that epoch, however many epochs have elapsed. -/
theorem electLoop_single_entry {env : ElectEnv} {TimeStamp prevEpoch : Int}
    {parent : BlockHeader} {k : Nat} {i : Int} {entry : Bytes × Bytes} {s s₁ s' : ElectState}
    (hk : (kickoutValidator env.o env.timeOfFirstBlock TimeStamp TimeStamp prevEpoch s).run =
      some (.ok s₁))
    (h : (electLoop env false TimeStamp prevEpoch parent (k + 1) i [entry] s).run = some (.ok s')) :
    s'.candidates = s₁.candidates := by
  cases hc : env.CountVotes s₁ with
  | error e =>
    simp [electLoop, ExceptT.run_bind, hk, hc] at h
  | ok r =>
    obtain ⟨votes, total⟩ := r
    rw [electLoop_kickout_ok hk hc] at h
    split at h
    · simp only [Option.some.injEq, Except.ok.injEq] at h
      rw [h]
    · -- the iterator is now exhausted
      exact (electLoop_keeps_candidates env false TimeStamp prevEpoch parent k (i + 1) []
        { s₁ with validators := some (electValidators env parent i votes) } s' (Or.inr rfl) h).1

/-! ## After a gap -/

/-- The schedule of the example: one nanosecond a block, two blocks a turn, two
validators, so epochs of four nanoseconds and a bound of one block. -/
def gapOption : option := ⟨1, 2, 2, 0, 0⟩

def minterA : Address := ⟨List.replicate 20 1, List.length_replicate⟩

def minterB : Address := ⟨List.replicate 20 2, List.length_replicate⟩

/-- The counts of the parent's epoch, one: each validator minted one block. -/
def gapEntries : List (Bytes × Bytes) :=
  [(mintKey 1 minterA, PutUint64 1), (mintKey 1 minterB, PutUint64 1)]

/-- An environment whose prefix iterator yields the two counts, and whose votes elect
both validators. -/
def gapEnv : ElectEnv :=
  ⟨gapOption, 0, 0, fun _ => .ok ([(minterA, 100), (minterB, 90)], 190), fun _ _ => gapEntries,
    fun _ => "", fun _ _ vs => vs⟩

/-- Both validators with weight fifty, and the mint count trie of the two counts. -/
def gapState : ElectState :=
  ⟨some [minterA, minterB],
    fun a => if a = minterA then some ⟨minterA, 50, 0⟩
      else if a = minterB then some ⟨minterB, 50, 0⟩ else none,
    fun key => gapEntries.lookup key⟩

/-- The parent, in epoch one. -/
def gapParent : BlockHeader := { genesisHeader with TimeStamp := 4 }

/-- A block at time twelve, in epoch three, after a parent in epoch one: epochs one and
two have elapsed, the validator minted one block in the first and none in the
second.  Adjusted once per elapsed epoch by that epoch's count, its weight of fifty
goes up by ten and back down by ten; the code adjusts it twice by the first epoch's
count, to seventy. -/
theorem tryElect_repeats_parent_counts :
    kickoutBound gapOption (epochDuration gapOption 0 12) = some 1 ∧
      gapState.mintCnt (mintKey 1 minterA) = some (PutUint64 1) ∧
      gapState.mintCnt (mintKey 2 minterA) = none ∧
      ((tryElect gapEnv 12 genesisHeader gapParent gapState).run.map fun r =>
        r.map fun s => (s.candidates minterA).map (·.Weight)) = some (.ok (some 70)) ∧
      (adjustWeight 1 12 0 (adjustWeight 1 12 1 ⟨minterA, 50, 0⟩)).Weight = 50 := by
  refine ⟨by decide, by decide, by decide, by decide, by decide⟩

end Consensus
end Uranus
