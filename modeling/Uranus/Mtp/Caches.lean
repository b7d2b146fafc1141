import Uranus.Mtp.NodeCodec

/-!
# Right caches and the blobs of a run

The hasher trusts the hashes cached in node flags and the hash nodes it meets: it
returns them as they are instead of hashing the subtree again.  This module states
what makes that sound.  A run of trie operations draws its blobs from a set
{lit}`B` on which the hash function has no collision; {lit}`Node.CachesOk` says that
every cached hash below a node is the hash of that node's blob, and that below the
root every cached hash and every hash node is of a blob too long to be embedded;
{lit}`BlobRel` relates a hash to a blob of {lit}`B` that decodes back to a node of the
same blob with right caches.

Main results:

- Theorem {lit}`cachesOk_decoded`: the decoded form of a node with right caches has
  right caches.
- Theorem {lit}`stored_of_rep`: every subnode of a trie with right caches and blobs
  in {lit}`B` is stored under the hash of its blob.
- Theorem {lit}`resolveHash_cachesOk`: a resolved hash node has right caches.
- Theorem {lit}`DbAgrees.insert`: writing a related blob keeps a database in
  agreement.
-/

namespace Uranus
namespace Mtp

open Rlp

section Defs

variable (sha : Bytes → Hash) (B : Set Bytes)

/-- A hash that stands for a child: every blob of {lit}`B` under it is too long to be
embedded. -/
def HashBig (h : Hash) : Prop := ∀ e ∈ B, sha e = h → 32 ≤ e.length

/-- The cached hash of a node, if any, is the hash of its blob, and below the root
that blob is too long to be embedded. -/
def CacheOk (top : Bool) (n : Node) : Prop :=
  ∀ c, n.cache.1 = some c → c = sha (n.blob sha) ∧ (top = false → 32 ≤ (n.blob sha).length)

/-- Right caches down to the hash nodes.  {lit}`top` marks the root of a trie, which
is hashed with {lit}`force` and may be a hash node of a short blob. -/
def Node.CachesOk : Bool → Node → Prop
  | top, .hash h => top = false → HashBig sha B h
  | top, .short key val f => CacheOk sha top (.short key val f) ∧ Node.CachesOk false val
  | top, .full cs f => CacheOk sha top (.full cs f) ∧ ∀ i, Node.CachesOk false (cs i)
  | _, _ => True

/-- The blob of an inner node is drawn from {lit}`B` and fits Go's sizes. -/
def BlobIn (n : Node) : Prop := n.blob sha ∈ B ∧ (n.blob sha).length < 256 ^ 8

/-- {lit}`BlobIn` for every inner node down to the hash nodes. -/
def Node.BlobsIn : Node → Prop
  | .short key val f => BlobIn sha B (.short key val f) ∧ Node.BlobsIn val
  | .full cs f => BlobIn sha B (.full cs f) ∧ ∀ i, Node.BlobsIn (cs i)
  | _ => True

/-- A blob the trie can store: at every generation it decodes to a node of that blob
with right caches. -/
def GoodBlob (e : Bytes) : Prop :=
  ∀ g d, decodeNode (some (sha e)) e g = .ok d → d.blob sha = e ∧ d.CachesOk sha B true

/-- The blob relation of a run whose blobs are drawn from {lit}`B`. -/
def BlobRel (h : Hash) (e : Bytes) : Prop := sha e = h ∧ e ∈ B ∧ GoodBlob sha B e

end Defs

variable {sha : Bytes → Hash} {B : Set Bytes}

/-! ## Unfolding -/

/-- The empty node has no caches to be wrong. -/
@[simp]
theorem cachesOk_nil (top : Bool) : Node.nil.CachesOk sha B top := trivial

/-- A value node has no caches to be wrong. -/
@[simp]
theorem cachesOk_value (top : Bool) (v : Bytes) : (Node.value v).CachesOk sha B top := trivial

/-- An inner node whose caches are right has its own cache right. -/
theorem Node.CachesOk.inner {n : Node} {top : Bool} (hn : n.CachesOk sha B top)
    (hinner : n.isInner = true) : CacheOk sha top n := by
  cases n with
  | short key val f => exact hn.1
  | full cs f => exact hn.1
  | _ => simp [Node.isInner] at hinner

/-- An inner node whose blobs are stored has its own blob stored. -/
theorem Node.BlobsIn.inner {n : Node} (hn : n.BlobsIn sha B) (hinner : n.isInner = true) :
    BlobIn sha B n := by
  cases n with
  | short key val f => exact hn.1
  | full cs f => exact hn.1
  | _ => simp [Node.isInner] at hinner

/-- A node without a cached hash has a right cache at any position. -/
theorem cacheOk_of_cache_none {n : Node} (hn : n.cache.1 = none) (top : Bool) :
    CacheOk sha top n := by
  intro c hc
  rw [hn] at hc
  cases hc

/-- A right cache at the root is right below it once the blob is long. -/
theorem CacheOk.of_top {n : Node} (hn : CacheOk sha true n) (hbig : 32 ≤ (n.blob sha).length)
    (top : Bool) : CacheOk sha top n :=
  fun c hc => ⟨(hn c hc).1, fun _ => hbig⟩

/-- The caches of an inner node right at the root stay right anywhere else, when its blob
is long enough to be replaced by its hash. -/
theorem Node.CachesOk.of_top {n : Node} (hn : n.CachesOk sha B true) (hinner : n.isInner = true)
    (hbig : 32 ≤ (n.blob sha).length) (top : Bool) : n.CachesOk sha B top := by
  cases n with
  | short key val f => exact ⟨hn.1.of_top hbig top, hn.2⟩
  | full cs f => exact ⟨hn.1.of_top hbig top, hn.2⟩
  | _ => simp [Node.isInner] at hinner

/-- No two blobs of a collision-free {lit}`B` are related to one hash. -/
theorem BlobRel.functional (hinj : Set.InjOn sha B) {h : Hash} {e₁ e₂ : Bytes}
    (h₁ : BlobRel sha B h e₁) (h₂ : BlobRel sha B h e₂) : e₁ = e₂ :=
  hinj h₁.2.1 h₂.2.1 (h₁.1.trans h₂.1.symm)

/-- The hash of a long blob of {lit}`B` stands for a child. -/
theorem hashBig_of_mem (hinj : Set.InjOn sha B) {e : Bytes} (he : e ∈ B) (hbig : 32 ≤ e.length) :
    HashBig sha B (sha e) := by
  intro e' he' hsha
  rw [hinj he' he hsha]
  exact hbig

/-! ## Decoded nodes -/

section Decoded

variable (hinj : Set.InjOn sha B)
include hinj

/-- A child as a blob's decoding reads it back has right caches: in place it carries
no hash, and a large child becomes the hash of its blob. -/
theorem cachesOk_decodedChild (g : UInt16) :
    ∀ {c : Node}, c.CachesOk sha B false → c.BlobsIn sha B →
      (decodedChild sha c (c.decoded sha g none)).CachesOk sha B false
  | .nil, _, _ => trivial
  | .value _, _, _ => trivial
  | .hash _, hc, _ => hc
  | .short key val f, hc, hb => by
    rw [decodedChild_of_isInner sha rfl]
    split
    · -- embedded: a fresh flag, and the child read back below it
      exact ⟨cacheOk_of_cache_none rfl false, cachesOk_decodedChild g hc.2 hb.2⟩
    · next hbig => exact fun _ => hashBig_of_mem hinj hb.1.1 (by omega)
  | .full cs f, hc, hb => by
    rw [decodedChild_of_isInner sha rfl]
    split
    · refine ⟨cacheOk_of_cache_none rfl false, fun i => ?_⟩
      -- the value slot is copied, the sixteen references are read back
      show (if i.val < 16 then _ else cs i).CachesOk sha B false
      split
      · exact cachesOk_decodedChild g (hc.2 i) (hb.2 i)
      · exact hc.2 i
    · next hbig => exact fun _ => hashBig_of_mem hinj hb.1.1 (by omega)

/-- The decoded form of an inner node with right caches has right caches, given a
right hash to carry at the top. -/
theorem cachesOk_decoded {n : Node} (hinner : n.isInner = true) {top : Bool}
    (hn : n.CachesOk sha B top) (hb : n.BlobsIn sha B) (g : UInt16) {hopt : Option Hash}
    {top' : Bool} (hopt_ok : ∀ c, hopt = some c →
      c = sha (n.blob sha) ∧ (top' = false → 32 ≤ (n.blob sha).length)) :
    (n.decoded sha g hopt).CachesOk sha B top' := by
  have htop : CacheOk sha top' (n.decoded sha g hopt) := by
    intro c hc
    rw [blob_decoded]
    cases n with
    | short key val f => exact hopt_ok c hc
    | full cs f => exact hopt_ok c hc
    | _ => simp [Node.isInner] at hinner
  cases n with
  | short key val f => exact ⟨htop, cachesOk_decodedChild hinj g hn.2 hb.2⟩
  | full cs f =>
    refine ⟨htop, fun i => ?_⟩
    show (if i.val < 16 then _ else cs i).CachesOk sha B false
    split
    · exact cachesOk_decodedChild hinj g (hn.2 i) (hb.2 i)
    · exact hn.2 i
  | _ => simp [Node.isInner] at hinner

end Decoded

/-! ## Stored blobs -/

section Stored

variable (hinj : Set.InjOn sha B)
include hinj

/-- The blob of an inner node of a trie with right caches and blobs in {lit}`B`
decodes to its decoded form with right caches, so it is a blob the trie can store. -/
theorem goodBlob_of_decodes {n : Node} {m : Content} (hinner : n.isInner = true) {top : Bool}
    (hn : n.CachesOk sha B top) (hb : n.BlobsIn sha B)
    (hdec : BlobDecodes sha (BlobRel sha B) n m) : GoodBlob sha B (n.blob sha) := by
  intro g d hd
  have hd' : decodeNodeFuel ((n.blob sha).length + 1) (some (sha (n.blob sha))) (n.blob sha) g =
      .ok d := hd
  rw [(hdec _ _ g (Nat.lt_succ_self _)).1] at hd'
  cases hd'
  exact ⟨blob_decoded sha n g _, cachesOk_decoded hinj hinner hn hb g
    (fun c hc => ⟨(Option.some.inj hc).symm, nofun⟩)⟩

/-- In a trie with right caches and blobs in {lit}`B`, every large subnode is stored
under the hash of its blob. -/
theorem stored_of_rep {n : Node} {m : Content} (hrep : Rep (BlobRel sha B) n m) :
    ∀ {top : Bool}, n.CachesOk sha B top → n.BlobsIn sha B → n.Stored sha (BlobRel sha B) := by
  induction hrep with
  | nil => intro _ _ _; trivial
  | value hv => intro _ _ _; trivial
  | hash hS dec hdec hrep ih => intro _ _ _; trivial
  | @short key val f m' hkey hshape hval hsplit ih =>
    intro top hn hb
    have hval_st := ih hn.2 hb.2
    have hdec := blobDecodes_short sha hkey hshape hval hsplit (blobDecodes sha hval) hval_st
      (f := f) hb.1.2
    refine ⟨fun _ => ⟨⟨rfl, hb.1.1, ?_⟩, hb.1.2⟩, hval_st⟩
    exact goodBlob_of_decodes hinj rfl hn hb hdec
  | @full cs f ms hcs hslot hsplit ih =>
    intro top hn hb
    have hcs_st : ∀ i, (cs i).Stored sha (BlobRel sha B) := fun i => ih i (hn.2 i) (hb.2 i)
    have hdec := blobDecodes_full sha hcs hslot hsplit (fun i => blobDecodes sha (hcs i)) hcs_st
      (f := f) hb.1.2
    refine ⟨fun _ => ⟨⟨rfl, hb.1.1, ?_⟩, hb.1.2⟩, hcs_st⟩
    exact goodBlob_of_decodes hinj rfl hn hb hdec

/-- An inner node of a trie with right caches and blobs in {lit}`B` decodes from its
blob to a node of the same map. -/
theorem blobDecodes_of_rep {n : Node} {m : Content} (hrep : Rep (BlobRel sha B) n m)
    (hinner : n.isInner = true) {top : Bool} (hn : n.CachesOk sha B top)
    (hb : n.BlobsIn sha B) : BlobDecodes sha (BlobRel sha B) n m :=
  blobDecodes sha hrep hinner (stored_of_rep hinj hrep hn hb) (hb.inner hinner).2

/-- Its blob is related to the hash of the blob. -/
theorem blobRel_of_rep {n : Node} {m : Content} (hrep : Rep (BlobRel sha B) n m)
    (hinner : n.isInner = true) {top : Bool} (hn : n.CachesOk sha B top)
    (hb : n.BlobsIn sha B) : BlobRel sha B (sha (n.blob sha)) (n.blob sha) :=
  ⟨rfl, (hb.inner hinner).1, goodBlob_of_decodes hinj hinner hn hb
    (blobDecodes_of_rep hinj hrep hinner hn hb)⟩

/-- So the hash node of its blob stands for the same map. -/
theorem rep_hash_of_rep {n : Node} {m : Content} (hrep : Rep (BlobRel sha B) n m)
    (hinner : n.isInner = true) {top : Bool} (hn : n.CachesOk sha B top)
    (hb : n.BlobsIn sha B) : Rep (BlobRel sha B) (.hash (sha (n.blob sha))) m :=
  rep_hash_of_decodes sha (blobRel_of_rep hinj hrep hinner hn hb)
    (blobDecodes_of_rep hinj hrep hinner hn hb)

end Stored

/-! ## Resolving hash nodes -/

/-- A hash node resolves to a node with right caches: the blob it reads is the one
the hash stands for, which decodes with right caches, and below the root it is
long. -/
theorem resolveHash_cachesOk (t : Trie) (hD : DbAgrees (BlobRel sha B) t.db) {h : Hash}
    {m : Content} (hrep : Rep (BlobRel sha B) (.hash h) m) {top : Bool}
    (hc : (Node.hash h).CachesOk sha B top) {pfx : List Nibble} {d : Node}
    (hres : t.resolveHash h pfx = .ok d) : d.CachesOk sha B top := by
  cases hrep with
  | @hash _ enc _ hS dec hdec hrep =>
    obtain ⟨hsha, henc, hgood⟩ := hS
    unfold Trie.resolveHash at hres
    cases hn : t.db.Node h with
    | none => simp [hn] at hres
    | some enc' =>
      by_cases he : enc' = []
      · simp [hn, he] at hres
      · have henc' := hD h enc enc' ⟨hsha, henc, hgood⟩ hn he
        subst henc'
        have hd : decodeNode (some h) enc' t.cachegen = .ok d := by
          simp only [hn, he, if_false] at hres
          split at hres
          · next d' hd' =>
            cases hres
            exact hd'
          · cases hres
        subst hsha
        obtain ⟨hblob, hok⟩ := hgood t.cachegen d hd
        cases top with
        | true => exact hok
        | false =>
          exact hok.of_top (decodeNode_isInner hd) (by rw [hblob]; exact hc rfl enc' henc rfl) false

/-- {lit}`resolve` keeps right caches. -/
theorem resolve_cachesOk (t : Trie) (hD : DbAgrees (BlobRel sha B) t.db) {n : Node}
    {m : Content} (hrep : Rep (BlobRel sha B) n m) {top : Bool} (hc : n.CachesOk sha B top)
    {pfx : List Nibble} {d : Node} (hres : t.resolve n pfx = .ok d) : d.CachesOk sha B top := by
  cases n with
  | hash h => exact resolveHash_cachesOk t hD hrep hc hres
  | _ =>
    cases hres
    exact hc

/-! ## Databases in agreement -/

section Agree

variable {S : Hash → Bytes → Prop}

/-- A database whose reads did not change still agrees. -/
theorem DbAgrees.of_reads {db db' : Database} (hD : DbAgrees S db)
    (hr : ∀ k, db'.Node k = db.Node k) : DbAgrees S db' := by
  intro h enc enc' hS hn hne
  rw [hr] at hn
  exact hD h enc enc' hS hn hne

/-- Writing a related blob keeps a database in agreement with a functional blob
relation: the read under the written hash can only become that blob. -/
theorem DbAgrees.insert (hF : ∀ h e₁ e₂, S h e₁ → S h e₂ → e₁ = e₂) {db : Database}
    (hD : DbAgrees S db) {h : Hash} {e : Bytes} (hS : S h e) : DbAgrees S (db.insert h e) := by
  intro k enc enc' hk hn hne
  rw [Database.Node_insert] at hn
  split at hn
  · next hkh =>
    obtain ⟨rfl, -⟩ := hkh
    cases hn
    exact hF k e enc hS hk
  · exact hD k enc enc' hk hn hne

end Agree

end Mtp
end Uranus
