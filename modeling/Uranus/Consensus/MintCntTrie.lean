import Uranus.Consensus.MintCnt
import Uranus.Mtp.LoadedSpec

/-!
# Mint counts on the trie

{lit}`updateMintCnt` works on the {lit}`MintCntTrie` itself.  In the epoch of its
parent, a block reads its count only when a {lit}`NodeIterator` started at the epoch's
bytes finds a first entry, and it reads it with {lit}`Trie.Get`; the new count is
written with {lit}`TryUpdate`, whose error is dropped.  The iterator hashes the trie in
place, and the lookup keeps the nodes it resolves.

This module relates that code to the model over the trie's content map in
{lit}`Uranus.Consensus.MintCnt`.  A trie stands for a map when it is a trie of a run
that holds the map and every hash node of it is in its database.  With enough fuel
for the iterator, one block on a trie that stands for a map does what one block does
on the map with an iterator that always finds an entry: the iterator finds none only
when no stored key extends the epoch's bytes, and then there is no count to read.
Along a chain the trie keeps standing for the map, so that the counts read back from
the trie are the exact counts of {lit}`mintCntRun_counts`.

Main results:

- Theorem {lit}`updateMintCnt_refines`: the step lemma, one block on the trie refines
  one block on the map.
- Theorem {lit}`mintCntRun_refines`: the run lemma, by induction on the chain.
- Theorem {lit}`mintCntRun_counts_trie`: along a chain of strictly increasing
  {lit}`int64` timestamps from an empty trie, {lit}`TryGet` reads under the key of
  every epoch and validator the number of the chain's blocks of that epoch mined by
  that validator.
-/

namespace Uranus
namespace Consensus

open Uranus.Types Uranus.Mtp

namespace OnTrie

/-! ## The model -/

section Model

variable (sha : Bytes → Uranus.Hash)

/-- The count a block of its parent's epoch writes, read as {lit}`updateMintCnt` reads
it: a {lit}`NodeIterator` at the epoch's bytes, which hashes the trie in place, and,
when its first {lit}`Next` finds an entry, the count {lit}`Get` reads, plus one.  The
count is one when nothing is read; {lean}`none` is a panic, or fuel run out. -/
def readCnt (fuel : Nat) (currentEpochBytes : Bytes) (validator : Address) (t : Trie) :
    Option (Int × Trie) := do
  let (_, t) ← t.Hash sha
  let it ← t.NodeIterator sha currentEpochBytes fuel
  let (ok, _) ← Iterator.Next sha fuel (NewIterator it)
  if ok then
    let (cntBytes, t) := t.Get (currentEpochBytes ++ validator.bytes)
    -- not the first time to mint
    match cntBytes with
    | some cntBytes => (Uint64 cntBytes).map fun c => ((c : Int) + 1, t)
    | none => some (1, t)
  else some (1, t)

/-- {lit}`TryUpdate` with its error dropped, as {lit}`updateMintCnt` calls it: the trie
keeps its root when the update fails. -/
def writeCnt (t : Trie) (key value : Bytes) : Trie :=
  match t.TryUpdate key value with
  | .ok t' => t'
  | .error _ => t

/-- {lit}`updateMintCnt` on the mint count trie.  An epoch interval of zero is Go's
division by zero; the counts are integers, as in the model over the map. -/
def updateMintCnt (fuel : Nat) (o : option) (parentBlockTime currentBlockTime : Int)
    (validator : Address) (t : Trie) : Option Trie :=
  if o.epochInterval = 0 then none
  else do
    let currentEpoch := parentBlockTime.tdiv o.epochInterval
    let newEpoch := currentBlockTime.tdiv o.epochInterval
    let (cnt, t) ← if currentEpoch = newEpoch
      then readCnt sha fuel (PutUint64 (uint64 currentEpoch)) validator t
      else some (1, t)
    some (writeCnt t (mintKey newEpoch validator) (PutUint64 (uint64 cnt)))

/-- The mint counts of {lit}`Finalize` along a chain, on the trie, each block on the
trie its parent left. -/
def mintCntRun (fuel : Nat) (o : option) : BlockHeader → List BlockHeader → Trie → Option Trie
  | _, [], t => some t
  | parent, header :: rest, t => do
    let t ← updateMintCnt sha fuel o parent.TimeStamp header.TimeStamp header.Miner t
    mintCntRun fuel o header rest t

end Model

/-! ## The trie stands for the map -/

/-- A trie stands for a map: it is a trie of a run that holds the map, and every hash
node of it is in its database. -/
def Stands (sha : Bytes → Uranus.Hash) (B : Set Bytes) (t : Trie) (M : MintCntTrie) : Prop :=
  RunInv sha B t M ∧ Loaded t.db t.cachegen t.root

/-- The tries a chain passes through on its way have their blobs in {lit}`B`, whatever
the fuel. -/
def MintCntWithin (sha : Bytes → Uranus.Hash) (B : Set Bytes) (o : option) :
    BlockHeader → List BlockHeader → Trie → Prop
  | _, [], _ => True
  | parent, header :: rest, t => t.root.BlobsIn sha B ∧
      ∀ fuel t', updateMintCnt sha fuel o parent.TimeStamp header.TimeStamp header.Miner t = some t' →
        MintCntWithin sha B o header rest t'

/-- A counter is never the empty value, which would delete the key. -/
theorem PutUint64_ne_nil (v : Nat) : PutUint64 v ≠ [] := by
  intro h
  have hlen := length_PutUint64 v
  rw [h] at hlen
  cases hlen

section Refine

variable {sha : Bytes → Uranus.Hash} {B : Set Bytes} (hinj : Set.InjOn sha B)
  (hempty : ∀ e ∈ B, sha e ≠ emptyState sha) (hroot : emptyRoot ≠ emptyState sha)
include hinj hempty hroot

/-- The count read on the trie is the one read on the map, once the iterator has fuel
enough to find the first entry: when the iterator finds an entry, {lit}`Get` returns
what the map holds under the key, and when it finds none, the map holds nothing under
the key, which extends the start. -/
theorem readCnt_refines {t : Trie} {M : MintCntTrie} (hs : Stands sha B t M)
    (hb : t.root.BlobsIn sha B) (start : Bytes) (validator : Address) :
    ∃ F t', (∀ fuel, F ≤ fuel → readCnt sha fuel start validator t =
      (lastCnt M (start ++ validator.bytes)).map fun c => (c, t')) ∧ Stands sha B t' M := by
  obtain ⟨⟨m, hv, hM⟩, hload⟩ := hs
  obtain ⟨r, t₁, hh, -, hp₁, hv₁⟩ := hv.hash hinj hb
  have hload₁ := hv.Hash_loaded hM hload hh
  have hM₁ : Abstracts t₁.keyPrefix m M := hp₁ ▸ hM
  obtain ⟨F, hF⟩ := NodeIterator_first hinj hempty hroot hv hb hM hload start
  by_cases hfound : ∃ k v, M k = some v ∧ (¬ k < start ∨ k <+: start)
  · -- the iterator finds an entry, and Get reads what the map holds under the key
    obtain ⟨t₂, hget, hp₂, hv₂, hload₂⟩ := hv₁.TryGet_loaded hload₁ (start ++ validator.bytes)
    rw [hM₁.holds] at hget
    refine ⟨F, t₂, fun fuel hfuel => ?_, ⟨m, hv₂, hp₂ ▸ hM₁⟩, hload₂⟩
    obtain ⟨it, ok, it', hit, hnext, hok⟩ := hF fuel hfuel
    obtain rfl : ok = true := hok.mpr hfound
    rw [← Trie.NodeIterator_of_Hash hh hp₁] at hit
    simp only [readCnt, hh, hit, hnext, Trie.Get, hget, Option.bind_eq_bind, Option.bind_some,
      if_true]
    cases hk : M (start ++ validator.bytes) with
    | none => rw [lastCnt_of_none hk]; rfl
    | some b => simp [lastCnt, hk]
  · -- no key extends the start, so the map holds nothing under the key
    have hnone : M (start ++ validator.bytes) = none := by
      cases hk : M (start ++ validator.bytes) with
      | none => rfl
      | some v =>
        exact absurd ⟨_, v, hk, .inl List.le_append_left⟩ hfound
    refine ⟨F, t₁, fun fuel hfuel => ?_, ⟨m, hv₁, hM₁⟩, hload₁⟩
    obtain ⟨it, ok, it', hit, hnext, hok⟩ := hF fuel hfuel
    obtain rfl : ok = false := Bool.eq_false_iff.mpr fun h => hfound (hok.mp h)
    rw [← Trie.NodeIterator_of_Hash hh hp₁] at hit
    simp only [readCnt, hh, hit, hnext, Option.bind_eq_bind, Option.bind_some,
      Bool.false_eq_true, if_false, lastCnt_of_none hnone, Option.map_some]

/-- The step lemma: with enough fuel, one block on a trie that stands for a map ends as
one block on the map with an iterator that always finds an entry: both panic, or the
trie it leaves stands for the map it leaves. -/
theorem updateMintCnt_refines {t : Trie} {M : MintCntTrie} (hs : Stands sha B t M)
    (hb : t.root.BlobsIn sha B) (o : option) (parent current : Int) (validator : Address) :
    ∃ F r, (∀ fuel, F ≤ fuel → updateMintCnt sha fuel o parent current validator t = r) ∧
      Option.Rel (Stands sha B) r
        (Consensus.updateMintCnt o (fun _ _ => true) parent current validator M) := by
  by_cases hI : o.epochInterval = 0
  · refine ⟨0, none, fun fuel _ => by rw [updateMintCnt, if_pos hI], ?_⟩
    rw [Consensus.updateMintCnt, if_pos hI]
    exact .none
  -- the count, read on the trie as on the map, and the trie it is written to
  obtain ⟨F, tc, c, htrie, hmap, hsc⟩ : ∃ (F : Nat) (tc : Trie) (c : Option Int),
      (∀ fuel, F ≤ fuel → updateMintCnt sha fuel o parent current validator t =
        c.map fun cnt =>
          writeCnt tc (mintKey (current.tdiv o.epochInterval) validator) (PutUint64 (uint64 cnt))) ∧
      Consensus.updateMintCnt o (fun _ _ => true) parent current validator M =
        c.map (fun cnt => Function.update M (mintKey (current.tdiv o.epochInterval) validator)
          (some (PutUint64 (uint64 cnt)))) ∧
      Stands sha B tc M := by
    by_cases hEN : parent.tdiv o.epochInterval = current.tdiv o.epochInterval
    · obtain ⟨F, tc, h, hsc⟩ := readCnt_refines hinj hempty hroot hs hb
        (PutUint64 (uint64 (parent.tdiv o.epochInterval))) validator
      refine ⟨F, tc, lastCnt M (PutUint64 (uint64 (parent.tdiv o.epochInterval)) ++ validator.bytes),
        fun fuel hf => ?_, ?_, hsc⟩
      · simp only [updateMintCnt, if_neg hI, if_pos hEN]
        rw [h fuel hf]
        cases lastCnt M (PutUint64 (uint64 (parent.tdiv o.epochInterval)) ++ validator.bytes) <;> rfl
      · simp only [Consensus.updateMintCnt, if_neg hI, hEN, and_self, if_true, mintKey]
        cases lastCnt M (PutUint64 (uint64 (current.tdiv o.epochInterval)) ++ validator.bytes) <;> rfl
    · refine ⟨0, t, some 1, fun fuel _ => ?_, ?_, hs⟩
      · simp only [updateMintCnt, if_neg hI, if_neg hEN]
        rfl
      · simp only [Consensus.updateMintCnt, if_neg hI, hEN, false_and, if_false]
        rfl
  refine ⟨F, _, htrie, ?_⟩
  rw [hmap]
  cases c with
  | none => exact .none
  | some cnt =>
    -- the count is written to a valid loaded trie, which takes it
    obtain ⟨⟨m, hv, hM⟩, hload⟩ := hsc
    obtain ⟨t', hupd, hp', hv', hload'⟩ := hv.TryUpdate_loaded hload
      (mintKey (current.tdiv o.epochInterval) validator) (PutUint64_ne_nil (uint64 cnt))
    have hw : writeCnt tc (mintKey (current.tdiv o.epochInterval) validator)
        (PutUint64 (uint64 cnt)) = t' := by
      rw [writeCnt, hupd]
    rw [Option.map_some, Option.map_some, hw]
    exact .some ⟨⟨_, hv', hp' ▸ hM.update _ _⟩, hload'⟩

/-- The run lemma: along a chain whose tries have their blobs in {lit}`B`, with enough
fuel, the run on a trie that stands for a map ends as the run on the map: both panic,
or the trie it leaves stands for the map it leaves.  By induction on the chain, from
the step lemma; the fuel is the most any block needs. -/
theorem mintCntRun_refines (o : option) (chain : List BlockHeader) :
    ∀ (parent : BlockHeader) {t : Trie} {M : MintCntTrie}, Stands sha B t M →
      MintCntWithin sha B o parent chain t →
      ∃ F r, (∀ fuel, F ≤ fuel → mintCntRun sha fuel o parent chain t = r) ∧
        Option.Rel (Stands sha B) r (Consensus.mintCntRun o (fun _ _ => true) parent chain M) := by
  induction chain with
  | nil => exact fun _ t _ hs _ => ⟨0, some t, fun _ _ => rfl, .some hs⟩
  | cons header rest ih =>
    intro parent t M hs hwithin
    obtain ⟨hb, hrest⟩ := hwithin
    obtain ⟨F₁, r₁, h₁, hrel₁⟩ :=
      updateMintCnt_refines hinj hempty hroot hs hb o parent.TimeStamp header.TimeStamp header.Miner
    generalize hA : Consensus.updateMintCnt o (fun _ _ => true) parent.TimeStamp header.TimeStamp
      header.Miner M = A at hrel₁
    cases hrel₁ with
    | none =>
      -- the block panics on the map and on the trie
      refine ⟨F₁, none, fun fuel hf => ?_, ?_⟩
      · rw [mintCntRun, h₁ fuel hf]
        rfl
      · rw [Consensus.mintCntRun, hA]
        exact .none
    | @some t' M' hs' =>
      -- the rest of the chain goes on from the trie and the map the block leaves
      obtain ⟨F₂, r₂, h₂, hrel₂⟩ := ih header hs' (hrest F₁ t' (h₁ F₁ le_rfl))
      refine ⟨max F₁ F₂, r₂, fun fuel hf => ?_, ?_⟩
      · rw [mintCntRun, h₁ fuel (le_of_max_le_left hf)]
        exact h₂ fuel (le_of_max_le_right hf)
      · rw [Consensus.mintCntRun, hA]
        exact hrel₂

/-- Mint counts are exact on the trie: along a chain of strictly increasing
{lit}`int64` timestamps from the genesis, each block finalized on the trie its parent
left, from an empty trie over a content-addressed database, with its tries' blobs in
{lit}`B` and enough fuel for the iterator, the run succeeds, and {lit}`TryGet` reads
under the key of every {lit}`int64` epoch and validator the number of the chain's
blocks of that epoch mined by that validator. -/
theorem mintCntRun_counts_trie {o : option} (hI : 0 < o.epochInterval) {t₀ : Trie}
    (hnil : t₀.root = .nil) (hdb : ContentAddressed sha B t₀.db) (genesis : BlockHeader)
    (chain : List BlockHeader) (hts : ∀ h ∈ chain, Int64 h.TimeStamp)
    (hmono : List.IsChain (fun a b => a.TimeStamp < b.TimeStamp) (genesis :: chain))
    (hwithin : MintCntWithin sha B o genesis chain t₀) :
    ∃ F, ∀ fuel, F ≤ fuel → ∃ t, mintCntRun sha fuel o genesis chain t₀ = some t ∧
      ∀ e v, Int64 e → ∃ t', t.TryGet (mintKey e v) = .ok (mintCntValue (mintedIn o chain e v), t') := by
  have hs₀ : Stands sha B t₀ (fun _ => none) := ⟨runInv_empty hinj hnil hdb, hnil ▸ .nil⟩
  obtain ⟨F, r, hr, hrel⟩ := mintCntRun_refines hinj hempty hroot o chain genesis hs₀ hwithin
  -- on the map the counts are exact
  obtain ⟨M, hrun, hcounts⟩ := mintCntRun_counts (fun _ _ _ _ _ => rfl) hI genesis chain hts hmono
  rw [hrun] at hrel
  obtain ⟨hs⟩ := hrel
  refine ⟨F, fun fuel hf => ⟨_, hr fuel hf, fun e v he => ?_⟩⟩
  obtain ⟨⟨m, hv, hM⟩, hload⟩ := hs
  obtain ⟨t', hget, -⟩ := hv.TryGet_loaded hload (mintKey e v)
  rw [hM.holds, hcounts e v he] at hget
  exact ⟨t', hget⟩

end Refine

/-- Three blocks of one validator, with epochs of half a second and a hash that pads a
blob to 32 bytes: the first two blocks open epochs one and two, and the third, of
epoch two, finds through the iterator the count the second wrote. -/
theorem mintCntRun_counts_trie_slots :
    let sha : Bytes → Uranus.Hash := fun e => ⟨(e ++ List.replicate 32 0).take 32, by simp⟩
    let o : option := ⟨250000000, 2, 1, 2, 72⟩
    let t₀ : Trie := ⟨Database.NewDatabase (fun _ => none), .nil, emptyRoot, [], 0, 0⟩
    ∃ F, ∀ fuel, F ≤ fuel → ∃ t,
      mintCntRun sha fuel o genesisHeader [firstHeader, slotStartHeader, slotLateHeader] t₀ = some t ∧
      ∀ e v, Int64 e → ∃ t', t.TryGet (mintKey e v) =
        .ok (mintCntValue (mintedIn o [firstHeader, slotStartHeader, slotLateHeader] e v), t') := by
  intro sha o t₀
  let f : NodeFlag := ⟨none, 0, true⟩
  let leaf₁ : Node :=
    .short ((keybytesToHex (mintKey 1 oneKeyAddress)).drop 16) (.value (PutUint64 1)) f
  let leaf₂ : Node :=
    .short ((keybytesToHex (mintKey 2 oneKeyAddress)).drop 16) (.value (PutUint64 (uint64 1))) f
  let cs : Fin 17 → Node := setChild (setChild emptyChildren 1 leaf₁) 2 leaf₂
  let root₁ : Node := .short (keybytesToHex (mintKey 1 oneKeyAddress)) (.value (PutUint64 1)) f
  let root₂ : Node := .short ((keybytesToHex (mintKey 2 oneKeyAddress)).take 15) (.full cs f) f
  let B : Set Bytes :=
    {root₁.blob sha, root₂.blob sha, (Node.full cs f).blob sha, leaf₁.blob sha, leaf₂.blob sha}
  have hI : o.epochInterval ≠ 0 := by decide +kernel
  have hN₁ : firstHeader.TimeStamp.tdiv o.epochInterval = 1 := by decide +kernel
  have hN₂ : slotStartHeader.TimeStamp.tdiv o.epochInterval = 2 := by decide +kernel
  have hw₁ : writeCnt t₀ (mintKey 1 oneKeyAddress) (PutUint64 (uint64 1)) =
      { t₀ with root := root₁ } := rfl
  have hw₂ : writeCnt { t₀ with root := root₁ } (mintKey 2 oneKeyAddress) (PutUint64 (uint64 1)) =
      { t₀ with root := root₂ } := rfl
  -- the children of the full node: the leaves under 1 and 2, nil elsewhere
  have hcs : ∀ i, cs i = .nil ∨ cs i = leaf₁ ∨ cs i = leaf₂ := by
    intro i
    by_cases h2 : i = 2
    · exact .inr (.inr (by rw [h2]; rfl))
    · by_cases h1 : i = 1
      · exact .inr (.inl (by rw [h1]; rfl))
      · exact .inl (by simp [cs, setChild, Function.update_of_ne h2, Function.update_of_ne h1,
          emptyChildren])
  have hmem : ∀ e ∈ B, e = root₁.blob sha ∨ e = root₂.blob sha ∨ e = (Node.full cs f).blob sha ∨
      e = leaf₁.blob sha ∨ e = leaf₂.blob sha := fun e he => by simpa [B] using he
  have hinj : Set.InjOn sha B := by
    intro a ha b hb hab
    rcases hmem a ha with h | h | h | h | h <;> rcases hmem b hb with h' | h' | h' | h' | h' <;>
      rw [h, h'] at hab ⊢ <;> first | exact absurd hab (by decide +kernel) | decide +kernel
  have hempty : ∀ e ∈ B, sha e ≠ emptyState sha := by
    intro e he
    rcases hmem e he with h | h | h | h | h <;> rw [h] <;> decide +kernel
  have hblobs₂ : root₂.BlobsIn sha B := by
    refine ⟨⟨Set.mem_insert_of_mem _ (Set.mem_insert _ _), by decide +kernel⟩,
      ⟨Set.mem_insert_of_mem _ (Set.mem_insert_of_mem _ (Set.mem_insert _ _)), by decide +kernel⟩,
      fun i => ?_⟩
    rcases hcs i with h | h | h <;> rw [h]
    · trivial
    · exact ⟨⟨Set.mem_insert_of_mem _ (Set.mem_insert_of_mem _ (Set.mem_insert_of_mem _
        (Set.mem_insert _ _))), by decide +kernel⟩, trivial⟩
    · exact ⟨⟨Set.mem_insert_of_mem _ (Set.mem_insert_of_mem _ (Set.mem_insert_of_mem _
        (Set.mem_insert_of_mem _ (Set.mem_singleton _)))), by decide +kernel⟩, trivial⟩
  -- the first two blocks open epochs, so the tries they leave do not depend on the fuel
  have hwithin : MintCntWithin sha B o genesisHeader [firstHeader, slotStartHeader, slotLateHeader]
      t₀ := by
    refine ⟨trivial, fun fuel t₁ h₁ => ?_⟩
    simp only [updateMintCnt, if_neg hI,
      if_neg (show genesisHeader.TimeStamp.tdiv o.epochInterval ≠
        firstHeader.TimeStamp.tdiv o.epochInterval by decide +kernel)] at h₁
    change some (writeCnt t₀ (mintKey (firstHeader.TimeStamp.tdiv o.epochInterval) oneKeyAddress)
      (PutUint64 (uint64 1))) = some t₁ at h₁
    rw [hN₁, hw₁] at h₁
    cases h₁
    refine ⟨⟨⟨Set.mem_insert _ _, by decide +kernel⟩, trivial⟩, fun fuel t₂ h₂ => ?_⟩
    simp only [updateMintCnt, if_neg hI,
      if_neg (show firstHeader.TimeStamp.tdiv o.epochInterval ≠
        slotStartHeader.TimeStamp.tdiv o.epochInterval by decide +kernel)] at h₂
    change some (writeCnt { t₀ with root := root₁ }
      (mintKey (slotStartHeader.TimeStamp.tdiv o.epochInterval) oneKeyAddress)
      (PutUint64 (uint64 1))) = some t₂ at h₂
    rw [hN₂, hw₂] at h₂
    cases h₂
    exact ⟨hblobs₂, fun _ _ _ => trivial⟩
  have hdb : ContentAddressed sha B t₀.db := by
    intro h e hn hne
    by_cases hz : h = Hash.zero
    · subst hz
      simp [t₀, Database.NewDatabase, Database.Node, Database.cached] at hn
      exact absurd hn hne
    · simp [t₀, Database.NewDatabase, Database.Node, Database.cached, hz] at hn
  have hts : ∀ h ∈ [firstHeader, slotStartHeader, slotLateHeader], Int64 h.TimeStamp := by
    simp [Int64, firstHeader, slotStartHeader, slotLateHeader, slotHeader]
  have hmono : List.IsChain (fun a b => a.TimeStamp < b.TimeStamp)
      [genesisHeader, firstHeader, slotStartHeader, slotLateHeader] := by
    simp [genesisHeader, firstHeader, slotStartHeader, slotLateHeader, slotHeader]
  exact mintCntRun_counts_trie hinj hempty (by decide +kernel) (by decide +kernel) rfl hdb
    genesisHeader _ hts hmono hwithin

end OnTrie

end Consensus
end Uranus
