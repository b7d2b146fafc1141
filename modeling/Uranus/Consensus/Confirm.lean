import Uranus.Consensus.Dpos

/-!
# What the BFT confirmed header rests on

{lit}`handleConfirmed` checks that a confirmation is signed by the address it names
and that its block is on the chain; it does not check that the address is a
validator of the epoch.  The cache keeps the latest height of each of the last
{lit}`MaxValidatorSize` addresses heard from, and the BFT confirmed header is the
block at the {lit}`(n-1)/3`-th lowest of the {lit}`n` cached heights.  What the
header rests on is therefore a quorum of the cache, not of the validators: at
least {lit}`n - (n-1)/3` of its entries are at or above it.  With one entry that
quorum is one signer, whoever it is, so the first confirmation a node receives
after it starts sets the header.

Main results:

- Theorem {lit}`storeBFTConfirmedBlockHeader_eq`: the header is set to the block at
  {lit}`bftHeight` of the cache, which the read leaves as it was.
- Theorem {lit}`storeBFTConfirmedBlockHeader_quorum`: at least {lit}`n - (n-1)/3` of
  the {lit}`n` cached addresses confirmed a height at or above the new header's.
- Theorem {lit}`handleConfirmed_single_signer`: on the empty cache of
  {lit}`Init`, one validly signed confirmation from any address sets the header to
  its block.
-/

namespace Uranus
namespace Consensus

open Types Lib

/-- The cached heights, from the oldest entry to the newest, as
{lit}`storeBFTConfirmedBlockHeader` reads them. -/
def cachedHeights (lru : Lru Address UInt64) : List UInt64 := lru.entries.reverse.map Prod.snd

/-- The height {lit}`storeBFTConfirmedBlockHeader` picks: the {lit}`(n-1)/3`-th lowest. -/
def bftHeight (lru : Lru Address UInt64) : UInt64 :=
  let sorted := sortAsc (· ≤ ·) (cachedHeights lru)
  sorted.getD ((sorted.length - 1) / 3) 0

/-- There is one cached height for each cached confirmer. -/
theorem length_cachedHeights (lru : Lru Address UInt64) :
    (cachedHeights lru).length = lru.entries.length := by
  simp [cachedHeights]

/-- A count over the cached heights is a count over the entries. -/
theorem countP_cachedHeights (lru : Lru Address UInt64) (p : UInt64 → Bool) :
    (cachedHeights lru).countP p = lru.entries.countP (fun en => p en.2) := by
  simp [cachedHeights, List.countP_map, Function.comp_def]

/-- The cache with one more field replaced is the state itself when the field held it. -/
theorem with_bftConfirmeds_self {d : Dpos} {lru : Lru Address UInt64}
    (hlru : d.bftConfirmeds = some lru) : { d with bftConfirmeds := some lru } = d := by
  cases d
  cases hlru
  rfl

variable (e : Engine) (chain : IChainReader)

/-- On a cache that holds entries, {lit}`storeBFTConfirmedBlockHeader` sets the header
to the block at {lit}`bftHeight` and stores its hash; reading the cache leaves it as
it was.  A height the chain does not hold panics. -/
theorem storeBFTConfirmedBlockHeader_eq {d : Dpos} {lru : Lru Address UInt64}
    (hlru : d.bftConfirmeds = some lru) (hne : lru.entries ≠ []) :
    storeBFTConfirmedBlockHeader e chain d =
      (chain.GetBlockByHeight (bftHeight lru)).map fun blk =>
        ((), { d with
          bftConfirmedBlockHeader := some blk.header
          chainDb := { d.chainDb with bftConfirmedBlockHead := some (blk.header.Hash e.c).bytes } }) := by
  have hread : lru.getAll lru.Keys = (cachedHeights lru, lru) := Lru.getAll_Keys lru
  have hvals : cachedHeights lru ≠ [] := by simpa [cachedHeights] using hne
  change (storeBFTConfirmedBlockHeader e chain).run d = _
  simp only [storeBFTConfirmedBlockHeader]
  simp [hlru, hread, hvals, with_bftConfirmeds_self hlru, bftHeight]
  -- the block is read at the picked height on both sides
  cases chain.GetBlockByHeight _ <;> simp [hlru]

/-- At least {lit}`n - (n-1)/3` of the {lit}`n` cache entries are at or above the
picked height. -/
theorem bftHeight_quorum (lru : Lru Address UInt64) (hne : lru.entries ≠ []) :
    lru.entries.length - (lru.entries.length - 1) / 3 ≤
      lru.entries.countP (fun en => decide (bftHeight lru ≤ en.2)) := by
  have hpos : 0 < lru.entries.length := List.length_pos_iff.mpr hne
  have hi : (lru.entries.length - 1) / 3 < (cachedHeights lru).length := by
    rw [length_cachedHeights]
    omega
  have htrans : ∀ a b c : UInt64, a ≤ b → b ≤ c → a ≤ c := fun _ _ _ => UInt64.le_trans
  have h := sub_le_countP_sortAsc htrans UInt64.le_total (cachedHeights lru) hi 0
  rw [countP_cachedHeights, length_cachedHeights] at h
  simpa [bftHeight, length_sortAsc, length_cachedHeights] using h

/-- What {lit}`storeBFTConfirmedBlockHeader` guarantees: the new header is the block at
a height that at least {lit}`n - (n-1)/3` of the {lit}`n` cached addresses have
confirmed, at that height or above.  The cached addresses are whoever sent the
last confirmations. -/
theorem storeBFTConfirmedBlockHeader_quorum {d d' : Dpos} {lru : Lru Address UInt64}
    (hlru : d.bftConfirmeds = some lru) (hne : lru.entries ≠ [])
    (h : storeBFTConfirmedBlockHeader e chain d = some ((), d')) :
    ∃ height blk, chain.GetBlockByHeight height = some blk ∧
      d'.bftConfirmedBlockHeader = some blk.header ∧
      lru.entries.length - (lru.entries.length - 1) / 3 ≤
        lru.entries.countP (fun en => decide (height ≤ en.2)) := by
  rw [storeBFTConfirmedBlockHeader_eq e chain hlru hne] at h
  cases hb : chain.GetBlockByHeight (bftHeight lru) with
  | none => simp [hb] at h
  | some blk =>
    simp only [hb, Option.map_some, Option.some.injEq, Prod.mk.injEq, true_and] at h
    exact ⟨bftHeight lru, blk, hb, by rw [← h], bftHeight_quorum lru hne⟩

/-- A confirmation whose signature does not recover its address changes nothing. -/
theorem handleConfirmed_of_not_valid {confirmed : Confirmed} (hv : confirmed.IsValidate e.c = false)
    (d : Dpos) : handleConfirmed e chain confirmed d = some ((), d) := by
  change (handleConfirmed e chain confirmed).run d = _
  simp [handleConfirmed, hv]

/-- A valid confirmation of a block on the chain is cached under its address, with
no check of who the address is, and the header is stored again. -/
theorem handleConfirmed_of_valid {confirmed : Confirmed} {blk : Block} {d : Dpos}
    {lru : Lru Address UInt64} (hv : confirmed.IsValidate e.c = true)
    (hblk : chain.GetBlockByHeight confirmed.BlockHeight = some blk)
    (hhash : blk.Hash e.c = confirmed.BlockHash) (hlru : d.bftConfirmeds = some lru) :
    handleConfirmed e chain confirmed d = storeBFTConfirmedBlockHeader e chain
      { d with bftConfirmeds := some (lru.Add confirmed.Address confirmed.BlockHeight) } := by
  change (handleConfirmed e chain confirmed).run d = _
  simp [handleConfirmed, hv, hblk, hhash, hlru]
  rfl

/-- On the cache that {lit}`Init` creates, one confirmation signed by the address it
names, of a block on the chain, sets the BFT confirmed header to that block.  The
address can be any key holder's: no step reads the validators of the epoch. -/
theorem handleConfirmed_single_signer {n : Int} (hn : 0 < n) {d : Dpos}
    (hd : d.bftConfirmeds = Lru.New n) {confirmed : Confirmed} {blk : Block}
    (hv : confirmed.IsValidate e.c = true)
    (hblk : chain.GetBlockByHeight confirmed.BlockHeight = some blk)
    (hhash : blk.Hash e.c = confirmed.BlockHash) :
    ∃ d', handleConfirmed e chain confirmed d = some ((), d') ∧
      d'.bftConfirmedBlockHeader = some blk.header := by
  let lru : Lru Address UInt64 := ⟨n.toNat, [], List.nodup_nil, Nat.zero_le _, by omega⟩
  have hlru : d.bftConfirmeds = some lru := by simp [hd, Lru.New, hn, lru]
  -- the cache is empty and not full, so the entry is added in front of nothing
  have hadd : (lru.Add confirmed.Address confirmed.BlockHeight).entries =
      [(confirmed.Address, confirmed.BlockHeight)] := by
    simp [Lru.entries_Add, Lru.keys, lru, hn]
  have hpick : bftHeight (lru.Add confirmed.Address confirmed.BlockHeight) =
      confirmed.BlockHeight := by
    simp [bftHeight, cachedHeights, hadd, sortAsc]
  rw [handleConfirmed_of_valid e chain hv hblk hhash hlru,
    storeBFTConfirmedBlockHeader_eq e chain rfl (by simp [hadd]), hpick, hblk]
  exact ⟨_, rfl, rfl⟩

/-! ## One signer from outside the validators

Under primitives where recovery from any signature gives one key, the message
names that key's address, the only validator of every epoch is the zero address,
and the chain holds one block, at height one. -/

/-- Keccak-256 replaced by the last 32 bytes, and recovery that always gives one key. -/
def oneKeyCrypto : Crypto := ⟨BytesToHash, fun _ _ => some (4 :: List.replicate 64 1)⟩

def oneKeyAddress : Address := BytesToAddress ((BytesToHash (List.replicate 64 1)).bytes.drop 12)

def heightOneHeader : BlockHeader :=
  ⟨Hash.zero, Address.zero, Hash.zero, Hash.zero, Hash.zero, Hash.zero, none, Bloom.zero, 1, 1,
    0, 0, 1, [], MinerNonce.zero⟩

def heightOneChain : IChainReader where
  Config := ⟨none, 60, 500000000, 12, 3, [], 30, 259200⟩
  CurrentBlock := some ⟨heightOneHeader, [], []⟩
  GetHeader := fun _ => none
  GetBlockByHeight := fun h => if h = 1 then some ⟨heightOneHeader, [], []⟩ else none
  GetBlockByHash := fun _ => none

/-- The engine whose every epoch has the zero address as its only validator. -/
def zeroValidatorEngine : Engine :=
  ⟨oneKeyCrypto, ⟨500000000, 12, 3, 2, 72⟩, fun _ _ => none, fun _ => true,
    fun _ => some ⟨some [Address.zero]⟩, 8⟩

/-- The engine right after {lit}`Init`, with a cache of three entries. -/
def startedDpos : Dpos := ⟨none, none, Lru.New 3, Address.zero, ⟨none, none⟩, [], -1⟩

def outsiderConfirmed : Confirmed :=
  ⟨1, (⟨heightOneHeader, [], []⟩ : Block).Hash oneKeyCrypto, oneKeyAddress, []⟩

/-- A confirmation signed by an address that is not a validator still sets the confirmed
header, through the one cached height it adds. -/
theorem handleConfirmed_outsider_sets_header :
    outsiderConfirmed.IsValidate oneKeyCrypto = true ∧
    (zeroValidatorEngine.contextOf ⟨Hash.zero, Hash.zero, Hash.zero, Hash.zero, Hash.zero⟩ =
      some ⟨some [Address.zero]⟩ ∧ outsiderConfirmed.Address ≠ Address.zero) ∧
    ∃ d', handleConfirmed zeroValidatorEngine heightOneChain outsiderConfirmed startedDpos =
        some ((), d') ∧ d'.bftConfirmedBlockHeader = some heightOneHeader :=
  ⟨by decide +kernel, ⟨rfl, by decide +kernel⟩,
    @handleConfirmed_single_signer zeroValidatorEngine heightOneChain 3 (by decide) startedDpos rfl
      outsiderConfirmed ⟨heightOneHeader, [], []⟩ (by decide +kernel) rfl rfl⟩

/-! ## Four cached confirmations

Four addresses have confirmed heights three, one, two and three, on a chain of three
blocks.  The picked height is the second lowest, two, which three of the four
confirmations reach. -/

/-- The address of twenty bytes {lit}`k`. -/
def confirmer (k : UInt8) : Address := ⟨List.replicate 20 k, by simp⟩

/-- A header at a height, otherwise {lit}`heightOneHeader`. -/
def headerAt (height : Int) : BlockHeader := { heightOneHeader with Height := height }

/-- A chain of three blocks, at the heights one to three. -/
def heightThreeChain : IChainReader :=
  { heightOneChain with
    GetBlockByHeight := fun h =>
      if 1 ≤ h ∧ h ≤ 3 then some ⟨headerAt (h.toNat : Int), [], []⟩ else none }

/-- A cache of four entries, of the heights three, one, two and three. -/
def fourCache : Lru Address UInt64 :=
  ⟨4, [(confirmer 1, 3), (confirmer 2, 1), (confirmer 3, 2), (confirmer 4, 3)], by decide,
    by decide, by decide⟩

def fourCachedDpos : Dpos := { startedDpos with bftConfirmeds := some fourCache }

/-- With four cached confirmations, the stored header is at a height that all but a
third of them reach. -/
theorem storeBFTConfirmedBlockHeader_quorum_four :
    ∃ d', storeBFTConfirmedBlockHeader zeroValidatorEngine heightThreeChain fourCachedDpos =
        some ((), d') ∧
      ∃ height blk, heightThreeChain.GetBlockByHeight height = some blk ∧
        d'.bftConfirmedBlockHeader = some blk.header ∧
        fourCache.entries.length - (fourCache.entries.length - 1) / 3 ≤
          fourCache.entries.countP (fun en => decide (height ≤ en.2)) := by
  -- the sort is checked, not run: the heights are a permutation of one sorted list
  have hsort : sortAsc (· ≤ ·) (cachedHeights fourCache) = [1, 2, 3, 3] := by
    have htrans : ∀ a b c : UInt64, a ≤ b → b ≤ c → a ≤ c := fun _ _ _ => UInt64.le_trans
    have hanti : ∀ a b : UInt64, a ≤ b → b ≤ a → a = b := fun _ _ => UInt64.le_antisymm
    refine sortAsc_eq_of_perm htrans UInt64.le_total hanti ?_ ?_
    · decide
    · decide
  have hpick : bftHeight fourCache = 2 := by
    rw [bftHeight, hsort]
    rfl
  have hblk : heightThreeChain.GetBlockByHeight 2 = some ⟨headerAt 2, [], []⟩ := rfl
  have hstore := storeBFTConfirmedBlockHeader_eq zeroValidatorEngine heightThreeChain
    (show fourCachedDpos.bftConfirmeds = some fourCache from rfl) (by decide)
  rw [hpick, hblk, Option.map_some] at hstore
  exact ⟨_, hstore, @storeBFTConfirmedBlockHeader_quorum zeroValidatorEngine heightThreeChain
    fourCachedDpos _ fourCache rfl (by decide) hstore⟩

end Consensus
end Uranus
