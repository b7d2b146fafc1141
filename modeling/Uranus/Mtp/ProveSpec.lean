import Uranus.Mtp.Run

/-!
# A Merkle proof opens its key (`Trie.Prove`)

{lit}`Trie.Prove` walks the path of a key, collects the short and full nodes it
passes, resolving hash nodes on the way, and writes the encoding of each under its
hash: the first node always, every other node when it is too long to be embedded in
its parent, which is when its parent references it by hash.  A verifier opens a trie
at the root hash over a database holding the proof and looks the key up.

This module shows that the proof is complete.  On a valid trie over a database whose
blobs decode to nodes with blobs in {lit}`B`, {lit}`Prove` returns a store from which
that lookup reads the value the trie holds under the key, unless the trie's own
database lacks a node on the key's path.  The lookup reads one node of the proof for every hash node on the path and
decodes the rest in place; {lit}`Covers` says that a database holds every node a lookup
reads.  Read back from their blobs, the collected nodes are what the verifier meets: an
embedded child comes back in place, a long child as the hash of its blob, which the
proof holds.

Main results:

- Theorems {lit}`tryGet_of_covers` and {lit}`prove_of_covers`: a lookup, and the walk
  of {lit}`Prove`, along a covered path meet no missing node.
- Theorem {lit}`prove_spec`: on a valid trie the walk collects inner nodes of the trie
  with right caches and blobs in {lit}`B`, or meets a missing node.
- Theorem {lit}`prove_covers`: a database holding the blobs of the long collected
  nodes covers the path of the key from every node of it, and from the root hash
  once it holds the first node too.
- Theorem {lit}`writeProof_spec`: the write loop stores exactly those blobs.
- Theorem {lit}`New_TryGet_of_covers`: a trie opened at a covered root hash finds the
  value the hash stands for.
- Theorem {lit}`Prove_complete`: the proof opens the key.
-/

namespace Uranus
namespace Mtp

open Lib Rlp

/-! ## Covered lookups -/

/-- {lit}`Covers db g n q`: the lookup of the rest {lit}`q` from {lit}`n`, decoding at
generation {lit}`g`, finds in {lit}`db` every node it resolves.  It follows
{lit}`tryGetWith`: a short node whose key is no prefix of the rest ends the lookup, and
a hash node must be stored, not as the empty blob, and cover the rest in whatever its
blob decodes to. -/
inductive Covers (db : Database) (g : UInt16) : Node → List Nibble → Prop
  | nil (q : List Nibble) : Covers db g .nil q
  | value (v : Bytes) (q : List Nibble) : Covers db g (.value v) q
  | shortMiss {key : List Nibble} {val : Node} {f : NodeFlag} {q : List Nibble}
      (hmiss : q.length < key.length ∨ key ≠ q.take key.length) :
      Covers db g (.short key val f) q
  | shortHit {key : List Nibble} {val : Node} {f : NodeFlag} {q : List Nibble}
      (hhit : ¬ (q.length < key.length ∨ key ≠ q.take key.length))
      (hval : Covers db g val (q.drop key.length)) : Covers db g (.short key val f) q
  | full {cs : Fin 17 → Node} {f : NodeFlag} {i : Nibble} {q : List Nibble}
      (hchild : Covers db g (cs i) q) : Covers db g (.full cs f) (i :: q)
  | hash {h : Hash} {enc : Bytes} {q : List Nibble} (hn : db.Node h = some enc)
      (hne : enc ≠ []) (hdec : ∀ n, decodeNode (some h) enc g = .ok n → Covers db g n q) :
      Covers db g (.hash h) q

/-- A lookup along a covered path meets no missing node, whatever its levels: by
induction on the cover, each hash node it resolves is in the database. -/
theorem tryGet_of_covers (t : Trie) {n : Node} {q : List Nibble}
    (hcov : Covers t.db t.cachegen n q) (F : Nat) (pfx : List Nibble) (e : MissingNodeError) :
    t.tryGet F n pfx q ≠ .error (.missing e) := by
  induction hcov generalizing F pfx with
  | nil q => cases F <;> simp [Trie.tryGet, Trie.tryGetWith]
  | value v q => cases F <;> simp [Trie.tryGet, Trie.tryGetWith]
  | shortMiss hmiss => cases F <;> simp [Trie.tryGet, Trie.tryGetWith, hmiss]
  | @shortHit key val f q hhit hval ih =>
    cases F with
    | zero => simp [Trie.tryGet]
    | succ F =>
      -- below a short node the lookup stays on the same level
      have hv : t.tryGetWith (t.tryGet F) val (pfx ++ key) (q.drop key.length) ≠
          .error (.missing e) := ih (F + 1) (pfx ++ key)
      simp only [Trie.tryGet, Trie.tryGetWith, hhit, ↓reduceIte]
      split
      · next e' he' => rwa [he'] at hv
      · split <;> simp
  | @full cs f i q hchild ih =>
    cases F with
    | zero => simp [Trie.tryGet]
    | succ F =>
      have hv : t.tryGetWith (t.tryGet F) (cs i) (pfx ++ [i]) q ≠ .error (.missing e) :=
        ih (F + 1) (pfx ++ [i])
      simp only [Trie.tryGet, Trie.tryGetWith]
      split
      · next e' he' => rwa [he'] at hv
      · split <;> simp
  | @hash h enc q hn hne hdec ih =>
    cases F with
    | zero => simp [Trie.tryGet]
    | succ F =>
      simp only [Trie.tryGet, Trie.tryGetWith, Trie.resolveHash, hn, hne, ↓reduceIte]
      cases hd : decodeNode (some h) enc t.cachegen with
      | error err => simp
      | ok d =>
        -- the decoded node goes to the next level
        have hv := ih d hd F pfx
        simp only
        split
        · next e' he' => rwa [he'] at hv
        · simp

/-- So does {lit}`TryGet` when the path of the key is covered from the root. -/
theorem TryGet_of_covers (t : Trie) {key : Bytes}
    (hcov : Covers t.db t.cachegen t.root (keybytesToHex (t.keyPrefix ++ key)))
    (e : MissingNodeError) : t.TryGet key ≠ .error (.missing e) := by
  have hv := tryGet_of_covers t hcov (Trie.levels (keybytesToHex (t.keyPrefix ++ key))) [] e
  simp only [Trie.TryGet]
  split
  · next e' he' =>
    rw [he'] at hv
    intro heq
    cases heq
    exact hv rfl
  · simp

/-- A mapped partial computation fails with the error it failed with. -/
theorem map_ne_missing {α β : Type} {f : α → β} {r : Except TrieError α} {e : MissingNodeError}
    (h : r ≠ .error (.missing e)) : r.map f ≠ .error (.missing e) := by
  cases r with
  | error e' => simpa [Except.map] using h
  | ok a => simp [Except.map]

/-- The walk of {lit}`Prove` along a covered path meets no missing node either, whatever
its levels: it resolves the hash nodes the lookup resolves, from the root of the
trie. -/
theorem prove_of_covers (t : Trie) {n : Node} {q : List Nibble}
    (hcov : Covers t.db t.cachegen n q) (F : Nat) (e : MissingNodeError) :
    t.prove F n q ≠ .error (.missing e) := by
  induction hcov generalizing F with
  | nil q => cases F <;> cases q <;> simp [Trie.prove, Trie.proveWith]
  | value v q => cases F <;> cases q <;> simp [Trie.prove, Trie.proveWith]
  | @shortMiss key val f q hmiss =>
    cases F with
    | zero => simp [Trie.prove]
    | succ F =>
      cases q with
      | nil => simp [Trie.prove, Trie.proveWith]
      | cons k ks =>
        simp only [Trie.prove, Trie.proveWith, hmiss, ↓reduceIte, ne_eq, reduceCtorEq,
          not_false_eq_true]
  | @shortHit key val f q hhit hval ih =>
    cases F with
    | zero => simp [Trie.prove]
    | succ F =>
      cases q with
      | nil => simp [Trie.prove, Trie.proveWith]
      | cons k ks =>
        -- below a short node the walk stays on the same level
        have hv : t.proveWith (t.prove F) val ((k :: ks).drop key.length) ≠ .error (.missing e) :=
          ih (F + 1)
        simp only [Trie.prove, Trie.proveWith, hhit, ↓reduceIte]
        exact map_ne_missing hv
  | @full cs f i q hchild ih =>
    cases F with
    | zero => simp [Trie.prove]
    | succ F =>
      have hv : t.proveWith (t.prove F) (cs i) q ≠ .error (.missing e) := ih (F + 1)
      simp only [Trie.prove, Trie.proveWith]
      exact map_ne_missing hv
  | @hash h enc q hn hne hdec ih =>
    cases F with
    | zero => simp [Trie.prove]
    | succ F =>
      cases q with
      | nil => simp [Trie.prove, Trie.proveWith]
      | cons k ks =>
        simp only [Trie.prove, Trie.proveWith, Trie.resolveHash, hn, hne, ↓reduceIte]
        cases hd : decodeNode (some h) enc t.cachegen with
        | error err => simp
        | ok d =>
          -- the decoded node goes to the next level
          simpa using ih d hd F

/-! ## The nodes on the path -/

/-- What {lit}`resolveHash` returns: the decoding of the blob, not empty, that the
database holds under the hash. -/
theorem Trie.resolveHash_ok (t : Trie) {h : Uranus.Hash} {pfx : List Nibble} {n : Node}
    (hres : t.resolveHash h pfx = .ok n) :
    ∃ enc, t.db.Node h = some enc ∧ enc ≠ [] ∧ decodeNode (some h) enc t.cachegen = .ok n := by
  unfold Trie.resolveHash at hres
  cases hn : t.db.Node h with
  | none => simp [hn] at hres
  | some enc =>
    by_cases he : enc = []
    · simp [hn, he] at hres
    · simp only [hn, he, if_false] at hres
      refine ⟨enc, rfl, he, ?_⟩
      split at hres
      · next d hd =>
        cases hres
        exact hd
      · cases hres

/-- A value of a partial computation mapped to a value. -/
theorem exists_of_map_eq_ok {ε α β : Type} {f : α → β} {r : Except ε α} {b : β}
    (h : r.map f = .ok b) : ∃ a, r = .ok a ∧ b = f a := by
  cases r with
  | error e => cases h
  | ok a =>
    cases h
    exact ⟨a, rfl, rfl⟩

/-- Past a short node whose key is a prefix of the rest, what is left of the rest is
compatible with the child's map and shorter. -/
theorem compat_drop_of_hit {key q : List Nibble} {m : Content} (hkey : key ≠ [])
    (hhit : ¬ (q.length < key.length ∨ key ≠ q.take key.length))
    (hq : Compat (KeyMap.prefixed key m) q) :
    Compat m (q.drop key.length) ∧ (q.drop key.length).length < q.length := by
  have hsplitq := eq_append_of_tryGet_hit hhit
  refine ⟨?_, ?_⟩
  · rw [hsplitq] at hq
    exact hq.prefixed
  · have := List.length_pos_of_ne_nil hkey
    have : key.length ≤ q.length := by
      by_contra hc
      exact hhit (.inl (by omega))
    simp only [List.length_drop]
    omega

section Path

variable {sha : Bytes → Hash} {B : Set Bytes}

variable (sha B) in
/-- Every blob a database holds decodes to nodes whose blobs are drawn from {lit}`B`,
as the blobs of a trie committed to it do. -/
def DbBlobsIn (db : Database) : Prop :=
  ∀ h enc g n, db.Node h = some enc → decodeNode (some h) enc g = .ok n → n.BlobsIn sha B

variable (sha B) in
/-- A node {lit}`Prove` may collect: an inner node storing a map, with right caches at
its position and blobs in {lit}`B`. -/
structure ProofNode (n : Node) : Prop where
  rep : ∃ m, Rep (BlobRel sha B) n m
  inner : n.isInner = true
  cachesOk : ∃ top, n.CachesOk sha B top
  blobsIn : n.BlobsIn sha B

variable (sha B) in
/-- What the walk of {lit}`Prove` may end in: nodes it may collect, or a missing
node. -/
def ProveResult (r : Except TrieError (List Node)) : Prop :=
  (∃ nodes, r = .ok nodes ∧ ∀ y ∈ nodes, ProofNode sha B y) ∨ ∃ e, r = .error (.missing e)

/-- A collected node in front of what the walk below it collects. -/
theorem ProveResult.cons {x : Node} (hx : ProofNode sha B x) {r : Except TrieError (List Node)}
    (hr : ProveResult sha B r) : ProveResult sha B (r.map (x :: ·)) := by
  rcases hr with ⟨nodes, rfl, hall⟩ | ⟨e, rfl⟩
  · refine .inl ⟨x :: nodes, rfl, fun y hy => ?_⟩
    rcases List.mem_cons.mp hy with rfl | hy
    · exact hx
    · exact hall y hy
  · exact .inr ⟨e, rfl⟩

/-- The blob of a node {lit}`Prove` may collect is related to its hash. -/
theorem ProofNode.blobRel (hinj : Set.InjOn sha B) {y : Node} (hy : ProofNode sha B y) :
    BlobRel sha B (sha (y.blob sha)) (y.blob sha) := by
  obtain ⟨⟨my, hrep⟩, hinner, ⟨top, hc⟩, hb⟩ := hy
  exact blobRel_of_rep hinj hrep hinner hc hb

/-- A hash node of a valid trie resolves to an inner node of the same map, with right
caches at the hash node's position and blobs in {lit}`B`, whose blob hashes to the
hash. -/
theorem resolveHash_node (t : Trie) (hD : DbAgrees (BlobRel sha B) t.db)
    (hdb : DbBlobsIn sha B t.db) {h : Hash} {m : Content} (hrep : Rep (BlobRel sha B) (.hash h) m)
    {top : Bool} (hc : (Node.hash h).CachesOk sha B top) {pfx : List Nibble} {n : Node}
    (hres : t.resolveHash h pfx = .ok n) :
    Rep (BlobRel sha B) n m ∧ n.isInner = true ∧ n.CachesOk sha B top ∧ n.BlobsIn sha B ∧
      sha (n.blob sha) = h := by
  obtain ⟨enc, hn, hne, hd⟩ := t.resolveHash_ok hres
  have hrepn : Rep (BlobRel sha B) n m ∧ n.isInner = true := by
    rcases resolveHash_spec t hD hrep pfx with ⟨n', hres', hrep', hinner'⟩ | ⟨e, hres'⟩
    · rw [hres] at hres'
      cases hres'
      exact ⟨hrep', hinner'⟩
    · rw [hres] at hres'
      cases hres'
  -- the blob decodes back to the node, so the node's blob is the one under the hash
  have hblob : sha (n.blob sha) = h := by
    cases hrep with
    | hash hS dec hdec hrep =>
      have henc := hD h _ enc hS hn hne
      subst henc
      obtain ⟨hsha, -, hgood⟩ := hS
      subst hsha
      rw [(hgood t.cachegen n hd).1]
  exact ⟨hrepn.1, hrepn.2, resolveHash_cachesOk t hD hrep hc hres, hdb h enc t.cachegen n hn hd,
    hblob⟩

variable (sha) in
/-- A database holds the blob of node {lit}`y` under the hash of the blob. -/
def HoldsBlob (D : Database) (y : Node) : Prop := D.Node (sha (y.blob sha)) = some (y.blob sha)

variable (sha) in
/-- What a database covers of the walk from {lit}`n` at the rest {lit}`q` that collected
{lit}`nodes`: an inner node heads the nodes and covers the rest in its decoded forms;
below the root the node covers the rest as its parent's blob reads it back; and a hash
node covers the rest once the database holds the node it resolved to. -/
def ProofCovers (D : Database) (g : UInt16) (top : Bool) (n : Node) (q : List Nibble)
    (nodes : List Node) : Prop :=
  (n.isInner = true → nodes.head? = some n ∧ ∀ hopt, Covers D g (n.decoded sha g hopt) q) ∧
  (top = false → Covers D g (decodedChild sha n (n.decoded sha g none)) q) ∧
  (n.isHash = true → (∀ y, nodes.head? = some y → HoldsBlob sha D y) → Covers D g n q)

/-- The blob of an inner node is an RLP list, never empty. -/
theorem blob_ne_nil {n : Node} (hn : n.isInner = true) : n.blob sha ≠ [] := by
  obtain ⟨items, hitems⟩ := toItem_collapse_of_isInner sha hn
  unfold Node.blob Collapsed.encode
  rw [hitems, Item.encode_list, puthead]
  split <;> simp

/-- A database holding the blob of an inner node of a valid trie covers the path from
the hash of the blob, once the node's decoded forms cover it. -/
theorem covers_hash_of_holds (hinj : Set.InjOn sha B) {n : Node} {m : Content}
    (hrep : Rep (BlobRel sha B) n m) (hinner : n.isInner = true) {top : Bool}
    (hc : n.CachesOk sha B top) (hb : n.BlobsIn sha B) {D : Database} {g : UInt16}
    {q : List Nibble} (hhold : HoldsBlob sha D n)
    (hcov : ∀ hopt, Covers D g (n.decoded sha g hopt) q) :
    Covers D g (.hash (sha (n.blob sha))) q := by
  refine Covers.hash hhold (blob_ne_nil hinner) fun d hd => ?_
  -- the blob decodes to the node's decoded form under its hash
  rw [(decodeNode_blob sha hrep hinner (stored_of_rep hinj hrep hc hb) (hb.inner hinner).2 _
    g).1] at hd
  cases hd
  exact hcov _

/-- An inner node that heads the collected nodes covers the rest as its parent reads it
back, when its decoded forms cover it and the database holds the long collected
nodes: it is read back in place when short, and through its hash when long. -/
theorem proofCovers_of_inner (hinj : Set.InjOn sha B) {n : Node} {m : Content}
    (hrep : Rep (BlobRel sha B) n m) (hinner : n.isInner = true) {top : Bool}
    (hc : n.CachesOk sha B top) (hb : n.BlobsIn sha B) {D : Database} {g : UInt16}
    {q : List Nibble} {nodes : List Node} (hhead : nodes.head? = some n)
    (hall : ∀ y ∈ nodes, 32 ≤ (y.blob sha).length → HoldsBlob sha D y)
    (hcov : ∀ hopt, Covers D g (n.decoded sha g hopt) q) : ProofCovers sha D g top n q nodes := by
  refine ⟨fun _ => ⟨hhead, hcov⟩, fun _ => ?_, fun hh => ?_⟩
  · rw [decodedChild_of_isInner sha hinner]
    split
    · exact hcov none
    · next hlong =>
      exact covers_hash_of_holds hinj hrep hinner hc hb
        (hall n (List.mem_of_mem_head? hhead) (by omega)) hcov
  · rw [Node.isHash_eq_false_of_isInner hinner] at hh
    cases hh

/-! ## The walk -/

section Walk

variable (t : Trie) (hD : DbAgrees (BlobRel sha B) t.db) (hdb : DbBlobsIn sha B t.db)
include hD hdb

/-- One level of the walk of {lit}`Prove` on a valid trie: on every rest no longer than
{lit}`F`, and shorter at a hash node, it collects nodes {lit}`Prove` may collect or
meets a missing node, given a next level that does so for the inner nodes it is handed
at shorter rests. -/
theorem proveWith_spec (F : Nat) {next : Node → List Nibble → Except TrieError (List Node)}
    (hnext : ∀ n m q, Rep (BlobRel sha B) n m → n.isInner = true →
      (∃ top, n.CachesOk sha B top) → n.BlobsIn sha B → Compat m q → q.length < F →
      ProveResult sha B (next n q))
    {n : Node} {m : Content} (hrep : Rep (BlobRel sha B) n m) :
    ∀ {top : Bool} q, Compat m q → q.length ≤ F → (n.isHash = true → q.length < F) →
      n.CachesOk sha B top → n.BlobsIn sha B → ProveResult sha B (t.proveWith next n q) := by
  induction hrep with
  | nil =>
    intro top q _ _ _ _ _
    exact .inl ⟨[], by cases q <;> rfl, by simp⟩
  | value hv =>
    intro top q hq _ _ _ _
    -- the compatible rest at a value is empty
    have hq0 : [] = q := hq [] (by simp) (.inl List.nil_prefix)
    subst hq0
    exact .inl ⟨[], rfl, by simp⟩
  | @short key val f m' hkey hshape hval hsplit ih =>
    intro top q hq hlen _ hc hb
    have hrep := Rep.short (f := f) hkey hshape hval hsplit
    have hx : ProofNode sha B (.short key val f) := ⟨⟨_, hrep⟩, rfl, ⟨top, hc⟩, hb⟩
    obtain ⟨k, ks, rfl⟩ := List.exists_cons_of_ne_nil (hrep.query_ne_nil rfl hq)
    by_cases hmiss : (k :: ks).length < key.length ∨ key ≠ (k :: ks).take key.length
    · -- the trie does not hold the key: the short node ends the path
      refine .inl ⟨[.short key val f], by simp only [Trie.proveWith, hmiss, ↓reduceIte], ?_⟩
      simpa using hx
    · obtain ⟨hq', hlen'⟩ := compat_drop_of_hit hkey hmiss hq
      simp only [Trie.proveWith, hmiss, ↓reduceIte]
      exact (ih _ hq' (by omega) (fun _ => by omega) hc.2 hb.2).cons hx
  | @full cs f ms hcs hslot hsplit ih =>
    intro top q hq hlen _ hc hb
    have hrep := Rep.full (f := f) hcs hslot hsplit
    have hx : ProofNode sha B (.full cs f) := ⟨⟨_, hrep⟩, rfl, ⟨top, hc⟩, hb⟩
    cases q with
    | nil => exact absurd rfl (hrep.query_ne_nil rfl hq)
    | cons i q =>
      simp only [Trie.proveWith]
      exact (ih i q hq.branch (by simp at hlen; omega) (fun _ => by simp at hlen; omega)
        (hc.2 i) (hb.2 i)).cons hx
  | @hash h enc m hS dec hdec hrep ih =>
    intro top q hq _ hlt hc _
    have hrep' := Rep.hash hS dec hdec hrep
    obtain ⟨k, ks, rfl⟩ :=
      List.exists_cons_of_ne_nil ((hrep 0).query_ne_nil (decodeNode_isInner (hdec 0)) hq)
    simp only [Trie.proveWith]
    rcases resolveHash_spec t hD hrep' [] with ⟨n, hres, hrepn, hinner⟩ | ⟨e, hres⟩
    · -- the resolved node goes to the next level with the same rest
      obtain ⟨-, -, hcn, hbn, -⟩ := resolveHash_node t hD hdb hrep' hc hres
      rw [hres]
      exact hnext n m _ hrepn hinner ⟨top, hcn⟩ hbn hq (hlt rfl)
    · rw [hres]
      exact .inr ⟨e, rfl⟩

/-- The walk of {lit}`Prove` with {lit}`F` levels on a valid trie.  With no level left
the node must be full or short, and a compatible rest is never empty there. -/
theorem prove_spec : ∀ (F : Nat) {n : Node} {m : Content}, Rep (BlobRel sha B) n m →
    ∀ {top : Bool} q, Compat m q → q.length ≤ F → (n.isHash = true → q.length < F) →
      (n.isInner = true ∨ 0 < F) → n.CachesOk sha B top → n.BlobsIn sha B →
      ProveResult sha B (t.prove F n q) := by
  intro F
  induction F with
  | zero =>
    intro n m hrep top q hq hlen _ hlevel _ _
    rcases hlevel with hinner | hpos
    · exact absurd (List.length_eq_zero_iff.mp (by omega)) (hrep.query_ne_nil hinner hq)
    · omega
  | succ F ih =>
    intro n m hrep top q hq hlen hlt _ hc hb
    apply proveWith_spec t hD hdb (F + 1) _ hrep q hq hlen hlt hc hb
    intro n' m' q' hrep' hinner' hc' hb' hq' hlt'
    obtain ⟨top', hc'⟩ := hc'
    exact ih hrep' q' hq' (by omega) (by simp [Node.isHash_eq_false_of_isInner hinner'])
      (.inl hinner') hc' hb'

section Covers

variable (hinj : Set.InjOn sha B) (D : Database) (g : UInt16)
include hinj

/-- One level of the walk of {lit}`Prove` on a valid trie, when it collects
{lit}`nodes` and the database holds the long ones: what it covers of the rest, by
induction on the node, given a next level that covers the rest in the decoded forms of
the inner nodes it is handed. -/
theorem proveWith_covers (F : Nat) {next : Node → List Nibble → Except TrieError (List Node)}
    (hnext : ∀ n m q nodes, Rep (BlobRel sha B) n m → n.isInner = true →
      (∃ top, n.CachesOk sha B top) → n.BlobsIn sha B → Compat m q → q.length < F →
      next n q = .ok nodes → (∀ y ∈ nodes, 32 ≤ (y.blob sha).length → HoldsBlob sha D y) →
      nodes.head? = some n ∧ ∀ hopt, Covers D g (n.decoded sha g hopt) q)
    {n : Node} {m : Content} (hrep : Rep (BlobRel sha B) n m) :
    ∀ {top : Bool} q nodes, Compat m q → q.length ≤ F → (n.isHash = true → q.length < F) →
      n.CachesOk sha B top → n.BlobsIn sha B → t.proveWith next n q = .ok nodes →
      (∀ y ∈ nodes, 32 ≤ (y.blob sha).length → HoldsBlob sha D y) →
      ProofCovers sha D g top n q nodes := by
  induction hrep with
  | nil =>
    intro top q nodes _ _ _ _ _ _ _
    exact ⟨(fun hi => by cases hi), fun _ => Covers.nil q, (fun hh => by cases hh)⟩
  | @value v hv =>
    intro top q nodes _ _ _ _ _ _ _
    exact ⟨(fun hi => by cases hi), fun _ => Covers.value v q, (fun hh => by cases hh)⟩
  | @short key val f m' hkey hshape hval hsplit ih =>
    intro top q nodes hq hlen _ hc hb hprove hall
    have hrep := Rep.short (f := f) hkey hshape hval hsplit
    obtain ⟨k, ks, rfl⟩ := List.exists_cons_of_ne_nil (hrep.query_ne_nil rfl hq)
    by_cases hmiss : (k :: ks).length < key.length ∨ key ≠ (k :: ks).take key.length
    · -- the trie does not hold the key: the short node ends the path
      simp only [Trie.proveWith, hmiss, ↓reduceIte, Except.ok.injEq] at hprove
      subst hprove
      exact proofCovers_of_inner hinj hrep rfl hc hb rfl hall fun _ => Covers.shortMiss hmiss
    · obtain ⟨hq', hlen'⟩ := compat_drop_of_hit hkey hmiss hq
      simp only [Trie.proveWith, hmiss, ↓reduceIte] at hprove
      obtain ⟨nodes', hval', rfl⟩ := exists_of_map_eq_ok hprove
      have hcov := (ih _ nodes' hq' (by omega) (fun _ => by omega) hc.2 hb.2 hval'
        (fun y hy => hall y (List.mem_cons_of_mem _ hy))).2.1 rfl
      exact proofCovers_of_inner hinj hrep rfl hc hb rfl hall fun _ => Covers.shortHit hmiss hcov
  | @full cs f ms hcs hslot hsplit ih =>
    intro top q nodes hq hlen _ hc hb hprove hall
    have hrep := Rep.full (f := f) hcs hslot hsplit
    cases q with
    | nil => exact absurd rfl (hrep.query_ne_nil rfl hq)
    | cons i q =>
      simp only [Trie.proveWith] at hprove
      obtain ⟨nodes', hchild, rfl⟩ := exists_of_map_eq_ok hprove
      have hcov := (ih i q nodes' hq.branch (by simp at hlen; omega)
        (fun _ => by simp at hlen; omega) (hc.2 i) (hb.2 i) hchild
        (fun y hy => hall y (List.mem_cons_of_mem _ hy))).2.1 rfl
      refine proofCovers_of_inner hinj hrep rfl hc hb rfl hall fun hopt => Covers.full ?_
      show Covers D g (if i.val < 16 then decodedChild sha (cs i) ((cs i).decoded sha g none)
        else cs i) q
      by_cases hi : i.val < 16
      · rw [if_pos hi]
        exact hcov
      · -- the value slot is copied as it is; it holds nil or a value
        rw [if_neg hi]
        have hi16 : i = 16 := Fin.ext (by have := i.isLt; simp; omega)
        have hend := ((shortShape_singleton_iff.mp (hslot i)).resolve_right
          (fun h16 => h16.1 hi16)).2
        rcases (hcs i).nil_or_value_of_atEnd hend with h0 | ⟨v, h0, -⟩
        · rw [h0]
          exact Covers.nil q
        · rw [h0]
          exact Covers.value v q
  | @hash h enc m hS dec hdec hrep ih =>
    intro top q nodes hq _ hlt hc _ hprove hall
    have hrep' := Rep.hash hS dec hdec hrep
    obtain ⟨k, ks, rfl⟩ :=
      List.exists_cons_of_ne_nil ((hrep 0).query_ne_nil (decodeNode_isInner (hdec 0)) hq)
    simp only [Trie.proveWith] at hprove
    cases hres : t.resolveHash h [] with
    | error e => simp [hres] at hprove
    | ok n =>
      simp only [hres] at hprove
      obtain ⟨hrepn, hinner, hcn, hbn, hsha⟩ := resolveHash_node t hD hdb hrep' hc hres
      obtain ⟨hhd, hcov⟩ := hnext n m _ nodes hrepn hinner ⟨top, hcn⟩ hbn hq (hlt rfl) hprove hall
      -- the resolved node heads the nodes; the hash node is covered once its blob is held
      have hcov_hash : HoldsBlob sha D n → Covers D g (.hash h) (k :: ks) := fun hhold => by
        rw [← hsha]
        exact covers_hash_of_holds hinj hrepn hinner hcn hbn hhold hcov
      refine ⟨(fun hi => by cases hi), fun htop => hcov_hash ?_, fun _ hhead => hcov_hash (hhead n hhd)⟩
      -- below the root the blob is long, so the database holds it
      exact hall n (List.mem_of_mem_head? hhd) (hc htop _ (hbn.inner hinner).1 hsha)

/-- The walk of {lit}`Prove` with {lit}`F` levels on a valid trie: what a database
holding the long collected nodes covers of the rest. -/
theorem prove_covers : ∀ (F : Nat) {n : Node} {m : Content}, Rep (BlobRel sha B) n m →
    ∀ {top : Bool} q nodes, Compat m q → q.length ≤ F → (n.isHash = true → q.length < F) →
      n.CachesOk sha B top → n.BlobsIn sha B → t.prove F n q = .ok nodes →
      (∀ y ∈ nodes, 32 ≤ (y.blob sha).length → HoldsBlob sha D y) →
      ProofCovers sha D g top n q nodes := by
  intro F
  induction F with
  | zero =>
    intro n m _ top q nodes _ _ _ _ _ hprove
    cases hprove
  | succ F ih =>
    intro n m hrep top q nodes hq hlen hlt hc hb hprove hall
    refine proveWith_covers t hD hdb hinj D g (F + 1) ?_ hrep q nodes hq hlen hlt hc hb hprove hall
    intro n' m' q' nodes' hrep' hinner' hc' hb' hq' hlt' hprove' hall'
    obtain ⟨top', hc'⟩ := hc'
    exact (ih hrep' q' nodes' hq' (by omega) (by simp [Node.isHash_eq_false_of_isInner hinner'])
      hc' hb' hprove' hall').1 hinner'

end Covers

end Walk

end Path

/-! ## The written proof -/

section Write

variable {sha : Bytes → Hash} {B : Set Bytes}

variable (sha B) in
/-- A proof store whose entries are blobs of {lit}`B`, each under the bytes of a hash it
is related to. -/
def StoresBlobs (kv : KeyValueStore) : Prop :=
  ∀ k e, kv k = some e → ∃ h, k = h.bytes ∧ BlobRel sha B h e

/-- The collapsed form of an inner node is no hash node. -/
theorem asHash_collapse (sha : Bytes → Hash) {n : Node} (hn : n.isInner = true) :
    (n.collapse sha).asHash = none := by
  cases n with
  | short _ _ _ => rfl
  | full _ _ => rfl
  | _ => simp [Node.isInner] at hn

/-- A database over a store reads the store, but under the zero hash, where the
meta-root sits. -/
theorem Database.Node_NewDatabase (kv : KeyValueStore) {h : Hash} (hz : h ≠ Hash.zero) :
    (Database.NewDatabase kv).Node h = kv h.bytes := by
  simp [Database.NewDatabase, Database.Node, Database.cached, hz]

/-- A database over a store of blobs of a collision-free {lit}`B` agrees with the blobs
of the run. -/
theorem StoresBlobs.agrees (hinj : Set.InjOn sha B) {kv : KeyValueStore}
    (hkv : StoresBlobs sha B kv) : DbAgrees (BlobRel sha B) (Database.NewDatabase kv) := by
  intro h enc enc' hS hn hne
  by_cases hz : h = Hash.zero
  · -- the meta-root holds the empty blob
    subst hz
    simp [Database.NewDatabase, Database.Node, Database.cached] at hn
    exact absurd hn hne
  · rw [Database.Node_NewDatabase kv hz] at hn
    obtain ⟨h', hk, hrel⟩ := hkv _ _ hn
    rw [Hash.ext hk] at hS
    exact BlobRel.functional hinj hrel hS

/-- Writing a related blob under the bytes of its hash keeps a store of blobs. -/
theorem StoresBlobs.update {kv : KeyValueStore} (hkv : StoresBlobs sha B kv) {h : Hash}
    {e : Bytes} (hrel : BlobRel sha B h e) :
    StoresBlobs sha B (Function.update kv h.bytes (some e)) := by
  intro k e' he
  by_cases hk : k = h.bytes
  · subst hk
    rw [Function.update_self] at he
    cases he
    exact ⟨h, rfl, hrel⟩
  · rw [Function.update_of_ne hk] at he
    exact hkv k e' he

/-- A write keeps every entry and adds one under the key written. -/
theorem isSome_update_some {kv : KeyValueStore} {k k' e : Bytes} (hk : (kv k).isSome ∨ k = k') :
    (Function.update kv k' (some e) k).isSome := by
  rw [Function.update_apply]
  split
  · rfl
  · next hne => exact hk.resolve_right hne

/-- A store of blobs of a collision-free {lit}`B` that holds something under the hash
of a node's blob holds that blob, unless the hash is the zero one. -/
theorem holdsBlob_of_isSome (hinj : Set.InjOn sha B)
    (hres : ∀ e ∈ B, sha e ≠ Hash.zero) {kv : KeyValueStore} (hkv : StoresBlobs sha B kv)
    {y : Node} (hy : ProofNode sha B y) (hsome : (kv (sha (y.blob sha)).bytes).isSome) :
    HoldsBlob sha (Database.NewDatabase kv) y := by
  obtain ⟨e, he⟩ := Option.isSome_iff_exists.mp hsome
  obtain ⟨h', hk, hsha, hmem, -⟩ := hkv _ e he
  have hy_mem := (hy.blobsIn.inner hy.inner).1
  -- the hash has no collision on B, so the blob under it is the node's
  have heq : e = y.blob sha := hinj hmem hy_mem (hsha.trans (Hash.ext hk).symm)
  unfold HoldsBlob
  rw [Database.Node_NewDatabase kv (hres _ hy_mem), he, heq]

variable (hs : Hasher) (hinj : Set.InjOn hs.sha B)
  (hleaf : ∀ cb, hs.onleaf = some cb → KeepsReads cb)
include hinj hleaf

/-- One round of the write loop, with nothing left to skip, on a node {lit}`Prove` may
collect: its blob is written under the hash of the blob when it is long, since
{lit}`store` then replaces it by that hash, or when it heads the path. -/
theorem writeProof_cons {y : Node} (hy : ProofNode hs.sha B y) (ys : List Node) (i : Nat)
    (kv : KeyValueStore) :
    Trie.writeProof hs (y :: ys) i 0 kv = Trie.writeProof hs ys (i + 1) 0
      (if 32 ≤ (y.blob hs.sha).length ∨ i = 0 then
        Function.update kv (hs.sha (y.blob hs.sha)).bytes (some (y.blob hs.sha)) else kv) := by
  obtain ⟨⟨my, hrep⟩, hinner, ⟨top, hc⟩, hb⟩ := hy
  obtain ⟨k, db', hhc⟩ := hs.hashChildren_result hinj hleaf hrep hinner hc hb
    (show OptAgrees (BlobRel hs.sha B) none from fun d hd => by cases hd)
  have hcache : ∀ c, y.cache.1 = some c → c = hs.sha (y.blob hs.sha) :=
    fun c hyc => (hc.inner hinner c hyc).1
  -- the encoding written is the blob
  have hblob : (y.collapse hs.sha).encode = y.blob hs.sha := rfl
  simp only [Trie.writeProof, hhc, hs.store_collapse hinner hcache, hblob, and_true]
  by_cases hlong : 32 ≤ (y.blob hs.sha).length
  · -- replaced by the hash of its blob
    have hlt : ¬ (y.blob hs.sha).length < 32 := by omega
    simp [hlt, hlong, Collapsed.asHash]
  · -- embedded, so written only at the head of the path, under the hash of its blob
    have hlt : (y.blob hs.sha).length < 32 := by omega
    by_cases hi : i = 0
    · simp [hlt, hlong, hi, asHash_collapse hs.sha hinner]
    · simp [hlt, hlong, hi, asHash_collapse hs.sha hinner]

/-- The write loop with nothing to skip, on nodes {lit}`Prove` may collect: it does not
panic, keeps a store of blobs of {lit}`B`, drops no entry, and holds something under
the hash of every long node and of the node at index {lit}`0`. -/
theorem writeProof_spec (nodes : List Node) :
    ∀ (i : Nat) {kv : KeyValueStore}, (∀ y ∈ nodes, ProofNode hs.sha B y) →
      StoresBlobs hs.sha B kv →
      ∃ kv', Trie.writeProof hs nodes i 0 kv = some kv' ∧ StoresBlobs hs.sha B kv' ∧
        (∀ k, (kv k).isSome → (kv' k).isSome) ∧
        (∀ y ∈ nodes, 32 ≤ (y.blob hs.sha).length → (kv' (hs.sha (y.blob hs.sha)).bytes).isSome) ∧
        (i = 0 → ∀ y, nodes.head? = some y → (kv' (hs.sha (y.blob hs.sha)).bytes).isSome) := by
  induction nodes with
  | nil =>
    intro i kv _ hkv
    exact ⟨kv, rfl, hkv, fun _ h => h, by simp, by simp⟩
  | cons y ys ih =>
    intro i kv hall hkv
    have hy := hall y List.mem_cons_self
    -- the store after this round: the node's blob under its hash, if it is written
    set written := 32 ≤ (y.blob hs.sha).length ∨ i = 0
    set kv₁ := if written then
      Function.update kv (hs.sha (y.blob hs.sha)).bytes (some (y.blob hs.sha)) else kv with hkv₁
    have hst₁ : StoresBlobs hs.sha B kv₁ := by
      by_cases hw : written
      · rw [hkv₁, if_pos hw]
        exact hkv.update (hy.blobRel hinj)
      · rw [hkv₁, if_neg hw]
        exact hkv
    have hkeep₁ : ∀ k, (kv k).isSome ∨ (written ∧ k = (hs.sha (y.blob hs.sha)).bytes) →
        (kv₁ k).isSome := by
      intro k hk
      by_cases hw : written
      · rw [hkv₁, if_pos hw]
        exact isSome_update_some (hk.imp_right And.right)
      · rw [hkv₁, if_neg hw]
        exact hk.resolve_right fun h => hw h.1
    obtain ⟨kv', hw', hst', hkeep', hlong', -⟩ :=
      ih (i + 1) (fun y' hy' => hall y' (List.mem_cons_of_mem _ hy')) hst₁
    refine ⟨kv', by rw [writeProof_cons hs hinj hleaf hy]; exact hw', hst',
      fun k hk => hkeep' k (hkeep₁ k (.inl hk)), ?_, ?_⟩
    · intro y' hy' hlong
      rcases List.mem_cons.mp hy' with rfl | hy'
      · exact hkeep' _ (hkeep₁ _ (.inr ⟨.inl hlong, rfl⟩))
      · exact hlong' y' hy' hlong
    · intro hi y' hy'
      cases hy'
      exact hkeep' _ (hkeep₁ _ (.inr ⟨.inr hi, rfl⟩))

end Write

/-! ## Verifying the proof -/

/-- A trie opened at a root hash over a database that agrees with a blob relation and
covers the path of a key from the root hash finds the value the hash stands for. -/
theorem New_TryGet_of_covers {S : Hash → Bytes → Prop} {D : Database} (hD : DbAgrees S D)
    {r : Hash} {m : Content} (hrep : Rep S (.hash r) m) (hterm : Terminal m)
    (hr : r ≠ Hash.zero ∧ r ≠ emptyRoot) {key : Bytes}
    (hcov : Covers D 0 (.hash r) (keybytesToHex key)) :
    ∃ v, New r D = .ok v ∧ ∃ v', v.TryGet key = .ok (m (keybytesToHex key), v') := by
  obtain ⟨enc, hn, hne, hdec⟩ : ∃ enc, D.Node r = some enc ∧ enc ≠ [] ∧
      ∀ d, decodeNode (some r) enc 0 = .ok d → Covers D 0 d (keybytesToHex key) := by
    cases hcov with
    | hash hn hne hdec => exact ⟨_, hn, hne, hdec⟩
  set tr : Trie := ⟨D, .nil, r, [], 0, 0⟩ with htr
  rcases resolveHash_spec tr hD hrep [] with ⟨d, hres, hrepd, -⟩ | ⟨e, hres⟩
  · -- the root resolves to a node whose lookup is covered
    have hcovd : Covers D 0 d (keybytesToHex key) := by
      obtain ⟨enc', hn', -, hd⟩ := tr.resolveHash_ok hres
      have henc : enc' = enc := Option.some.inj (hn'.symm.trans hn)
      subst henc
      exact hdec d hd
    have hnew : New r D = .ok { tr with root := d } := by
      simp only [New, hr, ne_eq, not_false_eq_true, and_self, if_true, ← htr, hres]
      rfl
    refine ⟨{ tr with root := d }, hnew, ?_⟩
    rcases TryGet_spec { tr with root := d } hD hrepd hterm key with ⟨v', hget⟩ | ⟨e, hget⟩
    · exact ⟨v', hget⟩
    · exact absurd hget (TryGet_of_covers { tr with root := d } hcovd e)
  · -- the root's blob is stored and not empty, so it is no missing node
    exfalso
    simp only [Trie.resolveHash, htr, hn, hne, if_false] at hres
    split at hres <;> cases hres

section Complete

variable {sha : Bytes → Hash} {B : Set Bytes} (hinj : Set.InjOn sha B)
  (hres : ∀ e ∈ B, sha e ≠ Hash.zero ∧ sha e ≠ emptyRoot)
include hinj hres

/-- At the root of a valid trie, what the proof covers: nothing for the empty trie, and
otherwise the path from the root hash, which stands for the trie's map.  An inner root
is the first collected node, and a root hash node resolves to it. -/
theorem root_covers {n : Node} {m : Content} (hrep : Rep (BlobRel sha B) n m)
    (hterm : Terminal m) (hc : n.CachesOk sha B true) (hb : n.BlobsIn sha B) {D : Database}
    {g : UInt16} {q : List Nibble} {nodes : List Node}
    (hhd : ∀ y, nodes.head? = some y → HoldsBlob sha D y)
    (hcov : ProofCovers sha D g true n q nodes) :
    n = .nil ∨ (Rep (BlobRel sha B) (.hash (n.rootHash sha)) m ∧
      (n.rootHash sha ≠ Hash.zero ∧ n.rootHash sha ≠ emptyRoot) ∧
      Covers D g (.hash (n.rootHash sha)) q) := by
  by_cases hinner : n.isInner = true
  · right
    obtain ⟨hhead, hdec⟩ := hcov.1 hinner
    rw [rootHash_of_isInner sha hinner]
    exact ⟨rep_hash_of_rep hinj hrep hinner hc hb, hres _ (hb.inner hinner).1,
      covers_hash_of_holds hinj hrep hinner hc hb (hhd n hhead) hdec⟩
  · cases n with
    | nil => exact .inl rfl
    | value v => exact absurd rfl (hrep.ne_value_of_terminal hterm v)
    | hash h =>
      right
      obtain ⟨e, hS⟩ : ∃ e, BlobRel sha B h e := by
        cases hrep with
        | hash hS _ _ _ => exact ⟨_, hS⟩
      refine ⟨hrep, ?_, hcov.2.2 rfl hhd⟩
      show h ≠ Hash.zero ∧ h ≠ emptyRoot
      rw [← hS.1]
      exact hres e hS.2.1
    | short _ _ _ => exact absurd rfl hinner
    | full _ _ => exact absurd rfl hinner

/-- A Merkle proof opens its key.  On a valid trie with blobs in {lit}`B` over a
database whose blobs decode to nodes with blobs in {lit}`B`, {lit}`Prove` with nothing
skipped, into a store of blobs of {lit}`B`, returns a store from which the trie opened
at the root hash reads the value the trie holds under the key.  It meets a missing
node only when the trie's own database does not hold every node the lookup of the key
reads.  {lit}`B` has no collision under the hash, and no blob of it hashes to the zero
hash or the empty root. -/
theorem Prove_complete {t : Trie} {m : Content} (hv : t.Valid sha B m)
    (hb : t.root.BlobsIn sha B) (hdb : DbBlobsIn sha B t.db) {kv : KeyValueStore}
    (hkv : StoresBlobs sha B kv) (key : Bytes) :
    (∃ kv', t.Prove sha key 0 kv = .ok kv' ∧
      ∃ v, New (t.root.rootHash sha) (Database.NewDatabase kv') = .ok v ∧
        ∃ v', v.TryGet key = .ok (m (keybytesToHex key), v')) ∨
      ∃ e, t.Prove sha key 0 kv = .error (.missing e) ∧
        ¬ Covers t.db t.cachegen t.root (keybytesToHex key) := by
  set k := keybytesToHex key with hk
  have hq : Compat m k := compat_of_terminal hv.terminal (keybytesToHex_terminated _)
  rcases prove_spec t hv.agrees hdb (Trie.levels k) hv.rep k hq (by simp [Trie.levels])
      (fun _ => by simp [Trie.levels]) (.inr (by simp [Trie.levels])) hv.cachesOk hb with
    ⟨nodes, hnodes, hgood⟩ | ⟨e, he⟩
  · obtain ⟨kv', hw, hkv', -, hlong, hfirst⟩ :=
      writeProof_spec ⟨sha, 0, 0, none⟩ hinj (fun cb h => by cases h) nodes 0 hgood hkv
    left
    refine ⟨kv', by simp only [Trie.Prove, ← hk, hnodes, hw], ?_⟩
    set D := Database.NewDatabase kv'
    -- the proof holds the long nodes on the path and the first one
    have hall : ∀ y ∈ nodes, 32 ≤ (y.blob sha).length → HoldsBlob sha D y := fun y hy hl =>
      holdsBlob_of_isSome hinj (fun e he => (hres e he).1) hkv' (hgood y hy) (hlong y hy hl)
    have hhd : ∀ y, nodes.head? = some y → HoldsBlob sha D y := fun y hy =>
      holdsBlob_of_isSome hinj (fun e he => (hres e he).1) hkv'
        (hgood y (List.mem_of_mem_head? hy)) (hfirst rfl y hy)
    have hcov := prove_covers t hv.agrees hdb hinj D 0 (Trie.levels k) hv.rep k nodes hq
      (by simp [Trie.levels]) (fun _ => by simp [Trie.levels]) hv.cachesOk hb hnodes hall
    rcases root_covers hinj hres hv.rep hv.terminal hv.cachesOk hb hhd hcov with
      hnil | ⟨hrep, hr, hcovr⟩
    · -- the empty trie: the verifier opens the empty trie, which holds nothing
      have hm := hv.rep
      rw [hnil] at hm ⊢
      rw [hm.nil_content]
      exact ⟨_, rfl, _, rfl⟩
    · exact New_TryGet_of_covers (StoresBlobs.agrees hinj hkv') hrep hv.terminal hr hcovr
  · exact .inr ⟨e, by simp only [Trie.Prove, ← hk, he], fun hcov => prove_of_covers t hcov _ e he⟩

end Complete

/-- On the trie that one update puts under the key of the byte 0x01, with a constant
hash, the proof of that key is written and opens it: the trie is in memory, so its
lookup reads no node from the database. -/
theorem Prove_complete_leaf :
    let sha : Bytes → Hash := fun _ => ⟨List.replicate 32 1, by decide⟩
    let root : Node := .short [0, 1, 16] (.value [2]) ⟨none, 0, true⟩
    let t : Trie := ⟨Database.NewDatabase (fun _ => none), root, emptyRoot, [], 0, 0⟩
    let m : Content := KeyMap.prefixed [0, 1, 16] (KeyMap.leaf [2])
    ∃ kv', t.Prove sha [1] 0 (fun _ => none) = .ok kv' ∧
      ∃ v, New (t.root.rootHash sha) (Database.NewDatabase kv') = .ok v ∧
        ∃ v', v.TryGet [1] = .ok (m (keybytesToHex [1]), v') := by
  intro sha root t m
  have hinj : Set.InjOn sha {root.blob sha} := Set.injOn_singleton _ _
  have hempty : StoresBlobs sha {root.blob sha} (fun _ => none) := fun _ _ he => by cases he
  have hkey : Terminated ([0, 1, 16] : List Nibble) := ⟨[0, 1], rfl, by simp [IsNibbles]⟩
  have hrep : Rep (BlobRel sha {root.blob sha}) root m :=
    Rep.short (by simp) (.inl ⟨hkey, atEnd_leaf _⟩) (Rep.value (by simp)) (KeyMap.splits_leaf _)
  -- the lookup of the key passes the leaf and reads no hash node
  have hcov : Covers t.db t.cachegen t.root (keybytesToHex [1]) :=
    Covers.shortHit (by decide) (Covers.value _ _)
  refine (Prove_complete (t := t) (m := m) hinj (fun e _ => ⟨by decide, by decide⟩)
    ⟨hrep, terminal_prefixed (.inl ⟨hkey, atEnd_leaf _⟩), ⟨cacheOk_of_cache_none rfl true, trivial⟩,
      StoresBlobs.agrees hinj hempty⟩
    ⟨⟨rfl, by decide⟩, trivial⟩ ?_ hempty [1]).resolve_right fun h => h.elim fun _ he => he.2 hcov
  -- the empty database holds only the meta-root, whose empty blob decodes to nothing
  intro h enc g n hn hd
  by_cases hz : h = Hash.zero
  · subst hz
    simp [t, Database.NewDatabase, Database.Node, Database.cached] at hn
    subst hn
    cases hd
  · simp [t, Database.NewDatabase, Database.Node, Database.cached, hz] at hn

end Mtp
end Uranus
