import Uranus.Mtp.IterSpec
import Uranus.Mtp.ProveSpec

/-!
# Lookups and updates of a loaded trie

A trie is loaded when every hash node in it is in its database ({lit}`Loaded`): a trie
that never left memory is, and so is one opened at a root over a database that holds
its nodes.  No walk of a loaded trie meets a missing node.  This module shows that the
operations a caller chains on one trie keep it valid and loaded: {lit}`Hash`, which
only caches hashes in flags; {lit}`TryGet`, which swaps the nodes it resolves in for
their hash nodes; and {lit}`TryUpdate`.

What {lit}`TryGet` leaves in place of the root is an expansion of it
({lit}`Expands`): hash nodes on the path of the key replaced by the nodes their blobs
decode to, with the generation renewed in the flags above them.  An expansion stores
the same map, is loaded, and collapses as the old node did, so that the hashes cached
above the replaced nodes stay right.

Main results:

- Theorem {lit}`Walks.loaded`: a node that walks is loaded.
- Theorems {lit}`tryGet_ne_missing` and {lit}`insert_loaded`: a lookup and an
  insertion meet no missing node in a loaded node, and the insertion leaves a loaded
  node.
- Theorems {lit}`Expands.rep`, {lit}`Expands.loaded`, {lit}`Expands.ref` and
  {lit}`Expands.cachesOk`: what an expansion keeps.
- Theorems {lit}`Trie.Valid.Hash_loaded`, {lit}`Trie.Valid.TryGet_loaded` and
  {lit}`Trie.Valid.TryUpdate_loaded`: the three operations on a valid loaded trie.
- Theorem {lit}`NodeIterator_first`: with enough fuel, the first {lit}`Next` of a node
  iterator finds an entry exactly when the map has one it would enumerate.
-/

namespace Uranus
namespace Mtp

open Lib

/-! ## Loaded nodes -/

/-- A node whose walk exists is loaded: the walk reads every hash node below it from
the database, and a child of a full node that the walk skips is nil. -/
theorem Walks.loaded {db : Database} {g : UInt16} {p : List Nibble} {n : Node}
    {L : List (List Nibble × Bytes)} {k : Nat} (hw : Walks db g p n L k) : Loaded db g n := by
  induction hw with
  | nil => exact .nil
  | value => exact .value _
  | short _ _ ih => exact .short ih
  | @full p cs f Ls ks _ hcs ih =>
    refine .full fun i => ?_
    by_cases hi : i ∈ nonNilIndices cs
    · exact ih i hi
    · have hnil : (cs i).isNil = true := by simpa using hi
      rw [Node.eq_nil_of_isNil hnil]
      exact .nil
  | hash hn hne hdec _ ih => exact .hash hn hne hdec ih

/-- A loaded node with one child replaced by a loaded node is loaded. -/
theorem Loaded.setChild {db : Database} {g : UInt16} {cs : Fin 17 → Node}
    (hcs : ∀ i, Loaded db g (cs i)) {c : Node} (hc : Loaded db g c) (k : Fin 17) :
    ∀ i, Loaded db g (setChild cs k c i) := by
  intro i
  by_cases hi : i = k
  · subst hi
    rw [setChild_same]
    exact hc
  · rw [setChild_ne cs c hi]
    exact hcs i

/-- A lookup in a loaded node meets no missing node, whatever its levels: by induction
on {lit}`Loaded`, every hash node it resolves is in the database. -/
theorem tryGet_ne_missing (t : Trie) {n : Node} (hload : Loaded t.db t.cachegen n) :
    ∀ (F : Nat) (pfx q : List Nibble) (e : MissingNodeError),
      t.tryGet F n pfx q ≠ .error (.missing e) := by
  induction hload with
  | nil => intro F pfx q e; cases F <;> simp [Trie.tryGet, Trie.tryGetWith]
  | value v => intro F pfx q e; cases F <;> simp [Trie.tryGet, Trie.tryGetWith]
  | @short key val f _ ih =>
    intro F pfx q e
    cases F with
    | zero => simp [Trie.tryGet]
    | succ F =>
      by_cases hmiss : q.length < key.length ∨ key ≠ q.take key.length
      · simp [Trie.tryGet, Trie.tryGetWith, hmiss]
      · -- below a short node the lookup stays on the same level
        have hv : t.tryGetWith (t.tryGet F) val (pfx ++ key) (q.drop key.length) ≠
            .error (.missing e) := ih (F + 1) (pfx ++ key) _ e
        simp only [Trie.tryGet, Trie.tryGetWith, hmiss, ↓reduceIte]
        split
        · next e' he' => rwa [he'] at hv
        · split <;> simp
  | @full cs f _ ih =>
    intro F pfx q e
    cases F with
    | zero => simp [Trie.tryGet]
    | succ F =>
      cases q with
      | nil => simp [Trie.tryGet, Trie.tryGetWith]
      | cons i q =>
        have hv : t.tryGetWith (t.tryGet F) (cs i) (pfx ++ [i]) q ≠ .error (.missing e) :=
          ih i (F + 1) (pfx ++ [i]) q e
        simp only [Trie.tryGet, Trie.tryGetWith]
        split
        · next e' he' => rwa [he'] at hv
        · split <;> simp
  | @hash h enc n hn hne hdec _ ih =>
    intro F pfx q e
    cases F with
    | zero => simp [Trie.tryGet]
    | succ F =>
      -- the decoded node goes to the next level
      have hv := ih F pfx q e
      simp only [Trie.tryGet, Trie.tryGetWith, Trie.resolveHash, hn, hne, hdec, ↓reduceIte]
      split
      · next e' he' => rwa [he'] at hv
      · simp

/-! ## Expansions -/

/-- {lit}`Expands db g n n'`: {lit}`n'` is {lit}`n` with hash nodes on one path replaced
by the nodes their blobs in {lit}`db` decode to at generation {lit}`g`, and the
generation renewed in the flags above them, as a lookup leaves it. -/
inductive Expands (db : Database) (g : UInt16) : Node → Node → Prop
  | refl (n : Node) : Expands db g n n
  | short {key : List Nibble} {val val' : Node} {f : NodeFlag} (gen : UInt16)
      (hval : Expands db g val val') :
      Expands db g (.short key val f) (.short key val' { f with gen := gen })
  | full {cs : Fin 17 → Node} {f : NodeFlag} {i : Fin 17} {c : Node} (gen : UInt16)
      (hc : Expands db g (cs i) c) :
      Expands db g (.full cs f) (.full (setChild cs i c) { f with gen := gen })
  | hash {h : Hash} {enc : Bytes} {d n' : Node} (hn : db.Node h = some enc) (hne : enc ≠ [])
      (hdec : decodeNode (some h) enc g = .ok d) (hd : Expands db g d n') :
      Expands db g (.hash h) n'

section Lookup

variable (t : Trie)

/-- One level of a lookup expands the node it reads, given a next level that expands
the nodes it is handed. -/
theorem tryGetWith_expands
    {next : Node → List Nibble → List Nibble → Except TrieError (Option Bytes × Node × Bool)}
    (hnext : ∀ n pfx q v n' b, next n pfx q = .ok (v, n', b) → Expands t.db t.cachegen n n') :
    ∀ (n : Node) (pfx q : List Nibble) {v : Option Bytes} {n' : Node} {b : Bool},
      t.tryGetWith next n pfx q = .ok (v, n', b) → Expands t.db t.cachegen n n' := by
  intro n
  induction n with
  | nil =>
    intro pfx q v n' b h
    cases h
    exact .refl _
  | value w =>
    intro pfx q v n' b h
    cases h
    exact .refl _
  | short key val f ih =>
    intro pfx q v n' b h
    simp only [Trie.tryGetWith] at h
    split at h
    · cases h
      exact .refl _
    · split at h
      · cases h
      · next hr =>
        -- the child is swapped in only when the walk below resolved a node
        split at h
        · cases h
          exact .short _ (ih _ _ hr)
        · cases h
          exact .refl _
  | full cs f ih =>
    intro pfx q v n' b h
    cases q with
    | nil => cases h
    | cons i q =>
      simp only [Trie.tryGetWith] at h
      split at h
      · cases h
      · next hr =>
        split at h
        · cases h
          exact .full _ (ih i _ _ hr)
        · cases h
          exact .refl _
  | hash x =>
    intro pfx q v n' b h
    simp only [Trie.tryGetWith] at h
    split at h
    · cases h
    · next child hres =>
      split at h
      · cases h
      · next hr =>
        cases h
        obtain ⟨enc, hn, hne, hdec⟩ := t.resolveHash_ok hres
        exact .hash hn hne hdec (hnext _ _ _ _ _ _ hr)

/-- A lookup with any number of levels expands the node it reads. -/
theorem tryGet_expands : ∀ (F : Nat) (n : Node) (pfx q : List Nibble) {v : Option Bytes}
    {n' : Node} {b : Bool}, t.tryGet F n pfx q = .ok (v, n', b) → Expands t.db t.cachegen n n'
  | 0, _, _, _, _, _, _, h => by cases h
  | F + 1, n, pfx, q, _, _, _, h =>
    tryGetWith_expands t (fun n pfx q _ _ _ hr => tryGet_expands F n pfx q hr) n pfx q h

end Lookup

section Keeps

variable {db : Database} {g : UInt16}

/-- An expansion of a loaded node is loaded: the decoded nodes it swaps in are the
ones {lit}`Loaded` reads. -/
theorem Expands.loaded {n n' : Node} (hx : Expands db g n n') : Loaded db g n → Loaded db g n' := by
  induction hx with
  | refl => exact id
  | short gen _ ih =>
    intro hl
    cases hl with
    | short hval => exact .short (ih hval)
  | @full cs f i c gen _ ih =>
    intro hl
    cases hl with
    | full hcs => exact .full (Loaded.setChild hcs (ih (hcs i)) i)
  | @hash h enc d n' hn hne hdec _ ih =>
    intro hl
    cases hl with
    | hash hn' hne' hdec' hload =>
      -- one blob under the hash, and one node it decodes to
      rw [hn] at hn'
      cases hn'
      rw [hdec] at hdec'
      cases hdec'
      exact ih hload

/-- An expansion stores the map the node stores: the node a hash node decodes to stores
the map of the hash node, since the database returns the blob the hash stands for. -/
theorem Expands.rep {S : Hash → Bytes → Prop} (hD : DbAgrees S db) {n n' : Node}
    (hx : Expands db g n n') : ∀ {m : Content}, Rep S n m → Rep S n' m := by
  induction hx with
  | refl => exact id
  | short gen _ ih =>
    intro m hr
    cases hr with
    | short hkey hshape hval hsplit => exact .short hkey hshape (ih hval) hsplit
  | @full cs f i c gen _ ih =>
    intro m hr
    cases hr with
    | full hcs hslot hsplit =>
      refine .full (fun j => ?_) hslot hsplit
      by_cases hj : j = i
      · subst hj
        rw [setChild_same]
        exact ih (hcs j)
      · rw [setChild_ne cs c hj]
        exact hcs j
  | @hash h enc d n' hn hne hdec _ ih =>
    intro m hr
    cases hr with
    | hash hS dec hdec' hrep =>
      have henc := hD h _ enc hS hn hne
      subst henc
      rw [hdec' g] at hdec
      cases hdec
      exact ih (hrep g)

/-- Nil and value nodes expand only to themselves. -/
theorem Expands.eq_of_nil_or_value {n n' : Node} (hx : Expands db g n n')
    (hn : n = .nil ∨ ∃ v, n = .value v ∧ v ≠ []) : n' = n := by
  cases hx with
  | refl => rfl
  | short => simp at hn
  | full => simp at hn
  | hash => simp at hn

/-- An expansion of a node that is no value is no value: a hash node decodes to an
inner node. -/
theorem Expands.ne_value {n n' : Node} (hx : Expands db g n n') :
    (∀ v, n ≠ .value v) → ∀ v, n' ≠ .value v := by
  induction hx with
  | refl => exact id
  | short => intro _ v h; cases h
  | full => intro _ v h; cases h
  | hash _ _ hdec _ ih =>
    intro _
    apply ih
    intro v hv
    have hinner := decodeNode_isInner hdec
    rw [hv] at hinner
    cases hinner

end Keeps

/-! ## Expansions collapse as the node did -/

section Collapse

variable {sha : Bytes → Uranus.Hash} {B : Set Bytes} {db : Database} {g : UInt16}

/-- Two inner nodes that collapse alike are referenced alike. -/
theorem ref_eq_of_collapse_eq {n n' : Node} (hn : n.isInner = true) (hn' : n'.isInner = true)
    (h : n'.collapse sha = n.collapse sha) : n'.ref sha = n.ref sha := by
  rw [ref_of_isInner sha hn, ref_of_isInner sha hn', Node.blob, Node.blob, h]

/-- An expansion of a short node's child that is referenced alike is seen alike from
the short node. -/
theorem Expands.shortRef {n n' : Node} (hx : Expands db g n n') (href : n'.ref sha = n.ref sha) :
    Mtp.shortRef sha n' = Mtp.shortRef sha n := by
  by_cases hv : ∃ v, n = .value v
  · obtain ⟨v, rfl⟩ := hv
    cases hx
    rfl
  · have hnv : ∀ v, n ≠ .value v := fun v h => hv ⟨v, h⟩
    rw [shortRef_of_ne_value sha hnv, shortRef_of_ne_value sha (hx.ne_value hnv), href]

/-- A short node over an expanded child referenced alike collapses alike. -/
theorem collapse_short_expands {key : List Nibble} {val val' : Node} (hx : Expands db g val val')
    (href : val'.ref sha = val.ref sha) (f f' : NodeFlag) :
    (Node.short key val' f').collapse sha = (Node.short key val f).collapse sha := by
  rw [collapse_short, collapse_short, hx.shortRef href]

/-- A full node with one child expanded collapses alike when that child is referenced
alike, or is the value slot and kept. -/
theorem collapse_full_expands {cs : Fin 17 → Node} {i : Fin 17} {c : Node}
    (href : i.val < 16 → c.ref sha = (cs i).ref sha) (hslot : i.val = 16 → c = cs i)
    (f f' : NodeFlag) :
    (Node.full (setChild cs i c) f').collapse sha = (Node.full cs f).collapse sha := by
  rw [collapse_full, collapse_full]
  congr 1
  funext j
  by_cases hj : j = i
  · subst hj
    rw [setChild_same]
    split
    · next hlt => rw [href hlt]
    · next hge => rw [hslot (by have := j.isLt; omega)]
  · rw [setChild_ne cs c hj]

/-- The node a hash node of the trie decodes to stores its map and has its blob, which
hashes to the hash, with right caches at the root. -/
theorem decoded_of_rep (hD : DbAgrees (BlobRel sha B) db) {h : Hash} {enc : Bytes} {d : Node}
    {m : Content} (hrep : Rep (BlobRel sha B) (.hash h) m) (hn : db.Node h = some enc)
    (hne : enc ≠ []) (hdec : decodeNode (some h) enc g = .ok d) :
    Rep (BlobRel sha B) d m ∧ d.blob sha = enc ∧ d.CachesOk sha B true ∧ sha enc = h ∧ enc ∈ B := by
  cases hrep with
  | hash hS dec hdec' hrep =>
    have henc := hD h _ enc hS hn hne
    subst henc
    obtain ⟨hsha, hmem, hgood⟩ := hS
    rw [hdec' g] at hdec
    cases hdec
    subst hsha
    obtain ⟨hblob, hok⟩ := hgood g (dec g) (hdec' g)
    exact ⟨hrep g, hblob, hok, rfl, hmem⟩

/-- Below the root, a hash node decodes to a node with right caches there, which is
referenced by the hash. -/
theorem decoded_ref (hD : DbAgrees (BlobRel sha B) db) {h : Hash} {enc : Bytes} {d : Node}
    {m : Content} (hrep : Rep (BlobRel sha B) (.hash h) m) (hbig : (Node.hash h).CachesOk sha B false)
    (hn : db.Node h = some enc) (hne : enc ≠ []) (hdec : decodeNode (some h) enc g = .ok d) :
    d.CachesOk sha B false ∧ d.ref sha = .hash h := by
  obtain ⟨-, hblob, hok, hsha, hmem⟩ := decoded_of_rep hD hrep hn hne hdec
  -- the blob under a child's hash is too long to be embedded
  have hlong : 32 ≤ (d.blob sha).length := by
    rw [hblob]
    exact hbig rfl enc hmem hsha
  have hinner := decodeNode_isInner hdec
  refine ⟨hok.of_top hinner hlong false, ?_⟩
  rw [ref_of_isInner sha hinner, if_neg (by omega), hblob, hsha]

/-- Below the root an expansion is referenced as the node it expands: a short or full
node over children referenced alike collapses alike, and a hash node decodes to a node
of the blob the hash stands for. -/
theorem Expands.ref (hD : DbAgrees (BlobRel sha B) db) {n n' : Node} (hx : Expands db g n n') :
    ∀ {m : Content}, Rep (BlobRel sha B) n m → n.CachesOk sha B false → n'.ref sha = n.ref sha := by
  induction hx with
  | refl => intro _ _ _; rfl
  | @short key val val' f gen hval ih =>
    intro m hr hc
    cases hr with
    | short _ _ hrval _ =>
      exact ref_eq_of_collapse_eq rfl rfl (collapse_short_expands hval (ih hrval hc.2) f _)
  | @full cs f i c gen _ ih =>
    intro m hr hc
    cases hr with
    | full hcs hslot _ =>
      refine ref_eq_of_collapse_eq rfl rfl (collapse_full_expands (fun _ => ih (hcs i) (hc.2 i)) ?_ f _)
      intro hi
      -- the value slot holds nil or a value, which expand only to themselves
      have hend : AtEnd _ := ((shortShape_singleton_iff.mp (hslot i)).resolve_right
        fun h => h.1 (Fin.ext (by simpa using hi))).2
      exact Expands.eq_of_nil_or_value ‹_› ((hcs i).nil_or_value_of_atEnd hend)
  | @hash h enc d n' hn hne hdec _ ih =>
    intro m hr hc
    obtain ⟨hrepd, -⟩ := decoded_of_rep hD hr hn hne hdec
    obtain ⟨hcd, hrefd⟩ := decoded_ref hD hr hc hn hne hdec
    rw [ih hrepd hcd, hrefd, ref_hash]

/-- An expansion of a short or full node collapses as the node does. -/
theorem Expands.collapse (hD : DbAgrees (BlobRel sha B) db) {n n' : Node} (hx : Expands db g n n')
    {m : Content} (hr : Rep (BlobRel sha B) n m) {top : Bool} (hc : n.CachesOk sha B top)
    (hinner : n.isInner = true) : n'.collapse sha = n.collapse sha := by
  cases hx with
  | refl => rfl
  | @short key val val' f gen hval =>
    cases hr with
    | short _ _ hrval _ => exact collapse_short_expands hval (hval.ref hD hrval hc.2) f _
  | @full cs f i c gen hchild =>
    cases hr with
    | full hcs hslot _ =>
      refine collapse_full_expands (fun _ => hchild.ref hD (hcs i) (hc.2 i)) ?_ f _
      intro hi
      have hend : AtEnd _ := ((shortShape_singleton_iff.mp (hslot i)).resolve_right
        fun h => h.1 (Fin.ext (by simpa using hi))).2
      exact hchild.eq_of_nil_or_value ((hcs i).nil_or_value_of_atEnd hend)
  | hash => cases hinner

/-- A node that collapses as a node with a right cache, under the same cached hash, has
a right cache: the two have one blob. -/
theorem cacheOk_of_collapse_eq {n n' : Node} {top : Bool} (hc : CacheOk sha top n)
    (hcache : n'.cache.1 = n.cache.1) (h : n'.collapse sha = n.collapse sha) :
    CacheOk sha top n' := by
  have hblob : n'.blob sha = n.blob sha := by rw [Node.blob, Node.blob, h]
  intro c hc'
  rw [hblob]
  exact hc c (hcache ▸ hc')

/-- An expansion has right caches where the node it expands has: a short or full node
keeps its cached hash over children that collapse alike, and a hash node decodes to a
node with right caches at its position. -/
theorem Expands.cachesOk (hD : DbAgrees (BlobRel sha B) db) {n n' : Node} (hx : Expands db g n n') :
    ∀ {m : Content} {top : Bool}, Rep (BlobRel sha B) n m → n.CachesOk sha B top →
      n'.CachesOk sha B top := by
  induction hx with
  | refl => intro _ _ _; exact id
  | @short key val val' f gen hval ih =>
    intro m top hr hc
    have hcol := (@Expands.short _ _ key val val' f gen hval).collapse hD hr hc rfl
    cases hr with
    | short _ _ hrval _ => exact ⟨cacheOk_of_collapse_eq hc.1 rfl hcol, ih hrval hc.2⟩
  | @full cs f i c gen hchild ih =>
    intro m top hr hc
    have hcol := (Expands.full (f := f) gen hchild).collapse hD hr hc rfl
    cases hr with
    | full hcs _ _ =>
      refine ⟨cacheOk_of_collapse_eq hc.1 rfl hcol, fun j => ?_⟩
      by_cases hj : j = i
      · subst hj
        rw [setChild_same]
        exact ih (hcs j) (hc.2 j)
      · rw [setChild_ne cs c hj]
        exact hc.2 j
  | @hash h enc d n' hn hne hdec _ ih =>
    intro m top hr hc
    obtain ⟨hrepd, -, hok, -⟩ := decoded_of_rep hD hr hn hne hdec
    cases top with
    | true => exact ih hrepd hok
    | false => exact ih hrepd (decoded_ref hD hr hc hn hne hdec).1

end Collapse

/-! ## Insertion into a loaded node -/

/-- What an insertion into a loaded node may end in: no missing node, and a loaded node
when it succeeds. -/
def LoadedResult (db : Database) (g : UInt16) (r : Except TrieError (Bool × Node)) : Prop :=
  (∀ e, r ≠ .error (.missing e)) ∧ ∀ d n', r = .ok (d, n') → Loaded db g n'

section Insert

variable (t : Trie) {value : Node}

/-- A success with a loaded node. -/
theorem LoadedResult.ok {d : Bool} {n' : Node} (h : Loaded t.db t.cachegen n') :
    LoadedResult t.db t.cachegen (.ok (d, n')) :=
  ⟨(fun _ h => by cases h), fun _ _ h => by cases h; exact ‹_›⟩

/-- A panic is no missing node. -/
theorem LoadedResult.panic : LoadedResult t.db t.cachegen (.error .panic) :=
  ⟨(fun _ h => by cases h), fun _ _ h => by cases h⟩

/-- The error of a result passed on. -/
theorem LoadedResult.error {r : Except TrieError (Bool × Node)} {e : TrieError}
    (hr : LoadedResult t.db t.cachegen r) (he : r = .error e) :
    LoadedResult t.db t.cachegen (.error e) :=
  ⟨fun e' h => hr.1 e' (by cases h; exact he), fun _ _ h => by cases h⟩

/-- The node {lit}`insertNil` builds over a loaded value is loaded. -/
theorem Loaded.insertNil {key : List Nibble} (hv : Loaded t.db t.cachegen value) :
    Loaded t.db t.cachegen (t.insertNil key value) := by
  unfold Trie.insertNil
  split
  · exact hv
  · exact .short hv

/-- The full node {lit}`insert` branches into is loaded when both its parts are. -/
theorem Loaded.branch {nkey key : List Nibble} {nval : Node} (hn : Loaded t.db t.cachegen nval)
    (hv : Loaded t.db t.cachegen value) (matchlen : Nat) (a b : Nibble) :
    Loaded t.db t.cachegen (t.branch nkey nval key value matchlen a b) :=
  .full (Loaded.setChild (Loaded.setChild (fun _ => .nil) (Loaded.insertNil t hn) a)
    (Loaded.insertNil t hv) b)

/-- Where the key ends, an insertion returns the value or panics. -/
theorem insertWith_nil_loaded
    {next : Node → List Nibble → List Nibble → Node → Except TrieError (Bool × Node)}
    (hv : Loaded t.db t.cachegen value) (n : Node) (pfx : List Nibble) :
    LoadedResult t.db t.cachegen (t.insertWith next n pfx [] value) := by
  unfold Trie.insertWith
  split
  · exact LoadedResult.ok t hv
  · exact LoadedResult.panic t
  · exact LoadedResult.ok t hv

/-- One level of an insertion of a loaded value into a loaded node, given a next level
that meets no missing node and leaves loaded nodes.  By induction on {lit}`Loaded`; the
node a hash node loads is the one {lit}`Loaded` reads, handed to the next level. -/
theorem insertWith_loaded
    {next : Node → List Nibble → List Nibble → Node → Except TrieError (Bool × Node)}
    (hnext : ∀ n pfx key, Loaded t.db t.cachegen n →
      LoadedResult t.db t.cachegen (next n pfx key value))
    (hv : Loaded t.db t.cachegen value) {n : Node} (hn : Loaded t.db t.cachegen n) :
    ∀ pfx key, LoadedResult t.db t.cachegen (t.insertWith next n pfx key value) := by
  induction hn with
  | nil =>
    intro pfx key
    cases key with
    | nil => exact insertWith_nil_loaded t hv _ pfx
    | cons k ks => exact LoadedResult.ok t (.short hv)
  | value w =>
    intro pfx key
    cases key with
    | nil => exact insertWith_nil_loaded t hv _ pfx
    | cons k ks => exact LoadedResult.panic t
  | @short nkey nval f hval ih =>
    intro pfx key
    cases key with
    | nil => exact insertWith_nil_loaded t hv _ pfx
    | cons k ks =>
      simp only [Trie.insertWith]
      split
      · -- the whole key of the short node matches: insert below it
        have hchild := ih (pfx ++ (k :: ks).take (prefixLen (k :: ks) nkey))
          ((k :: ks).drop (prefixLen (k :: ks) nkey))
        split
        · next e he => exact hchild.error t he
        · exact LoadedResult.ok t (.short hval)
        · next nn hnn => exact LoadedResult.ok t (.short (hchild.2 _ _ hnn))
      · split
        · split
          · exact LoadedResult.ok t (Loaded.branch t hval hv _ _ _)
          · exact LoadedResult.ok t (.short (Loaded.branch t hval hv _ _ _))
        · exact LoadedResult.panic t
  | @full cs f hcs ih =>
    intro pfx key
    cases key with
    | nil => exact insertWith_nil_loaded t hv _ pfx
    | cons k ks =>
      have hchild := ih k (pfx ++ [k]) ks
      simp only [Trie.insertWith]
      split
      · next e he => exact hchild.error t he
      · exact LoadedResult.ok t (.full hcs)
      · next nn hnn => exact LoadedResult.ok t (.full (Loaded.setChild hcs (hchild.2 _ _ hnn) k))
  | @hash h enc n₀ hn hne hdec hload _ =>
    intro pfx key
    cases key with
    | nil => exact insertWith_nil_loaded t hv _ pfx
    | cons k ks =>
      have hres : t.resolveHash h pfx = .ok n₀ := by
        simp only [Trie.resolveHash, hn, hne, hdec, ↓reduceIte]
      have hchild := hnext n₀ pfx (k :: ks) hload
      simp only [Trie.insertWith, hres]
      split
      · next e he => exact hchild.error t he
      · exact LoadedResult.ok t hload
      · next nn hnn => exact LoadedResult.ok t (hchild.2 _ _ hnn)

/-- An insertion of a loaded value into a loaded node, with any number of levels, meets
no missing node and leaves a loaded node. -/
theorem insert_loaded (hv : Loaded t.db t.cachegen value) :
    ∀ (F : Nat) (n : Node), Loaded t.db t.cachegen n → ∀ pfx key,
      LoadedResult t.db t.cachegen (t.insert F n pfx key value)
  | 0, _, _, _, _ => ⟨(fun _ h => by cases h), fun _ _ h => by cases h⟩
  | F + 1, _, hn, pfx, key =>
    insertWith_loaded t (fun n' pfx' key' hn' => insert_loaded hv F n' hn' pfx' key') hv hn pfx key

end Insert

/-! ## The operations on a valid loaded trie -/

section Trie

variable {sha : Bytes → Uranus.Hash} {B : Set Bytes} {t : Trie} {m : Content}

/-- Hashing a valid loaded trie that holds {lit}`M` keeps it loaded: hashing keeps its
walk. -/
theorem Trie.Valid.Hash_loaded {M : Bytes → Option Bytes} (hv : t.Valid sha B m)
    (hM : Abstracts t.keyPrefix m M) (hload : Loaded t.db t.cachegen t.root) {r : Uranus.Hash}
    {t' : Trie} (hh : t.Hash sha = some (r, t')) : Loaded t'.db t'.cachegen t'.root := by
  obtain ⟨E, K, hw, -⟩ := hv.walks hM hload
  exact (Trie.Hash_walks hh hw).loaded

/-- The node iterator of a hashed trie is that of the trie: it hashes the trie first, and
hashing again changes nothing. -/
theorem Trie.NodeIterator_of_Hash {r : Uranus.Hash} {t' : Trie} (hh : t.Hash sha = some (r, t'))
    (hp : t'.keyPrefix = t.keyPrefix) (start : Bytes) (fuel : Nat) :
    t'.NodeIterator sha start fuel = t.NodeIterator sha start fuel := by
  simp only [Trie.NodeIterator, newNodeIterator, hp, Trie.Hash_again hh, hh]

/-- {lit}`TryGet` on a valid loaded trie returns the value its map holds under the key,
and leaves a valid loaded trie with the same prefix: the root it leaves expands the old
one. -/
theorem Trie.Valid.TryGet_loaded (hv : t.Valid sha B m) (hload : Loaded t.db t.cachegen t.root)
    (key : Bytes) :
    ∃ t', t.TryGet key = .ok (m (keybytesToHex (t.keyPrefix ++ key)), t') ∧
      t'.keyPrefix = t.keyPrefix ∧ t'.Valid sha B m ∧ Loaded t'.db t'.cachegen t'.root := by
  set k := keybytesToHex (t.keyPrefix ++ key) with hk
  have hq : Compat m k := compat_of_terminal hv.terminal (keybytesToHex_terminated _)
  rcases tryGet_spec t hv.agrees (Trie.levels k) hv.rep [] k hq (by simp [Trie.levels])
      (fun _ => by simp [Trie.levels]) (.inr (by simp [Trie.levels])) with
    ⟨n', b, hr⟩ | ⟨e, hr⟩
  · -- the root is the expansion when the lookup resolved a node, else the old one
    have hroot : Expands t.db t.cachegen t.root (if b then n' else t.root) := by
      cases b
      · exact .refl _
      · exact tryGet_expands t _ _ _ _ hr
    refine ⟨{ t with root := if b then n' else t.root }, ?_, rfl,
      ⟨hroot.rep hv.agrees hv.rep, hv.terminal, hroot.cachesOk hv.agrees hv.rep hv.cachesOk,
        hv.agrees⟩, hroot.loaded hload⟩
    simp only [Trie.TryGet, ← hk, hr]
    cases b <;> rfl
  · exact absurd hr (tryGet_ne_missing t hload _ _ _ e)

/-- {lit}`TryUpdate` of a non-empty value on a valid loaded trie sets the key and leaves
a valid loaded trie with the same prefix. -/
theorem Trie.Valid.TryUpdate_loaded (hv : t.Valid sha B m) (hload : Loaded t.db t.cachegen t.root)
    (key : Bytes) {value : Bytes} (hval : value ≠ []) :
    ∃ t', t.TryUpdate key value = .ok t' ∧ t'.keyPrefix = t.keyPrefix ∧
      t'.Valid sha B (Function.update m (keybytesToHex (t.keyPrefix ++ key)) (some value)) ∧
      Loaded t'.db t'.cachegen t'.root := by
  set k := keybytesToHex (t.keyPrefix ++ key) with hk
  have hins := insert_loaded t (Loaded.value value) (Trie.levels k) t.root hload [] k
  have hupd : t.TryUpdate key value =
      (t.insert (Trie.levels k) t.root [] k (.value value)).map fun r => { t with root := r.2 } := by
    simp only [Trie.TryUpdate, ← hk, if_pos hval]
  rcases hv.tryUpdate key value with ⟨t', hr, hp, hv'⟩ | ⟨e, hr⟩
  · rw [if_neg hval] at hv'
    refine ⟨t', hr, hp, hv', ?_⟩
    rw [hupd] at hr
    -- the new root is the node the insertion returned
    cases hi : t.insert (Trie.levels k) t.root [] k (.value value) with
    | error e => rw [hi] at hr; cases hr
    | ok r =>
      rw [hi] at hr
      cases hr
      exact hins.2 r.1 r.2 hi
  · rw [hupd] at hr
    cases hi : t.insert (Trie.levels k) t.root [] k (.value value) with
    | error e' =>
      rw [hi] at hr
      cases hr
      exact absurd hi (hins.1 e)
    | ok r => rw [hi] at hr; cases hr

end Trie

/-! ## The first entry of an iterator -/

section First

variable {sha : Bytes → Uranus.Hash} {B : Set Bytes}

/-- The first round of the loop: {lit}`Next` returns true exactly when the loop returns
an entry. -/
theorem Iterator.collect_succ_Next {fuel n : Nat} {it last : Iterator} {out : List (Bytes × Bytes)}
    (h : Iterator.collect sha fuel (n + 1) it = some (out, last)) :
    ∃ ok it', Iterator.Next sha fuel it = some (ok, it') ∧ (ok = true ↔ out ≠ []) := by
  cases hn : Iterator.Next sha fuel it with
  | none => simp [Iterator.collect, hn] at h
  | some r =>
    obtain ⟨ok, it'⟩ := r
    refine ⟨ok, it', rfl, ?_⟩
    cases ok with
    | true =>
      rw [Iterator.collect_true hn] at h
      obtain ⟨r, -, hr⟩ := Option.map_eq_some_iff.mp h
      simp only [Prod.mk.injEq] at hr
      simp [← hr.1]
    | false =>
      rw [Iterator.collect_false hn, Option.some.injEq, Prod.mk.injEq] at h
      simp [← h.1]

/-- An enumeration is not empty exactly when the map has an entry it keeps. -/
theorem Enumerates.ne_nil_iff {pre : Bytes} {M : Bytes → Option Bytes} {P : Bytes → Prop}
    {out : List (Bytes × Bytes)} (h : Enumerates pre M P out) :
    out ≠ [] ↔ ∃ k v, M k = some v ∧ P k := by
  constructor
  · intro hne
    obtain ⟨e, he⟩ := List.exists_mem_of_ne_nil out hne
    obtain ⟨k, hk⟩ := h.full e he
    have hmem : (pre ++ k, e.2) ∈ out := by
      rw [← hk]
      exact he
    exact ⟨k, e.2, (h.mem k e.2).mp hmem⟩
  · rintro ⟨k, v, hMk, hPk⟩ hnil
    have hmem := (h.mem k v).mpr ⟨hMk, hPk⟩
    rw [hnil] at hmem
    exact List.not_mem_nil hmem

/-- On a valid loaded trie that holds {lit}`M`, with enough fuel, the first {lit}`Next`
of the iterator over {lit}`Trie.NodeIterator start` finds an entry exactly when
{lit}`M` has a key that is not before the start or is a prefix of it. -/
theorem NodeIterator_first (hinj : Set.InjOn sha B) (hempty : ∀ e ∈ B, sha e ≠ emptyState sha)
    (hroot : emptyRoot ≠ emptyState sha) {t : Trie} {m : Content} {M : Bytes → Option Bytes}
    (hv : t.Valid sha B m) (hb : t.root.BlobsIn sha B) (hM : Abstracts t.keyPrefix m M)
    (hload : Loaded t.db t.cachegen t.root) (start : Bytes) :
    ∃ F, ∀ fuel, F ≤ fuel → ∃ it ok it', t.NodeIterator sha start fuel = some it ∧
      Iterator.Next sha fuel (NewIterator it) = some (ok, it') ∧
      (ok = true ↔ ∃ k v, M k = some v ∧ (¬ k < start ∨ k <+: start)) := by
  obtain ⟨F, hF⟩ := NodeIterator_enumerates hinj hempty hroot hv hb hM hload start
  refine ⟨F, fun fuel hfuel => ?_⟩
  obtain ⟨it, out, last, hit, hcol, -, hen⟩ := hF fuel (F + 1) hfuel (Nat.le_succ F)
  obtain ⟨ok, it', hnext, hok⟩ := Iterator.collect_succ_Next hcol
  exact ⟨it, ok, it', hit, hnext, hok.trans hen.ne_nil_iff⟩

end First

end Mtp
end Uranus
