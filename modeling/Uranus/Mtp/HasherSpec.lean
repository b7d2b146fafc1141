import Uranus.Mtp.CacheWalks
import Uranus.Lib.FoldM

/-!
# What the hasher computes (`common/mtp/hasher.go`)

On a trie with right caches whose blobs are drawn from a collision-free set, the
hasher returns what the collapsed form says: the reference of every child, and the
hash of the blob at the root.  It returns a copy of the trie that stores the same
map in the same shape with right caches, hash nodes in place of the subtrees it
unloads, and a database that still agrees with the blobs of the run, because every
blob it writes is stored under the hash of that blob.

The leaf callback of a commit is only asked to change no read of the database.

Main results:

- Theorem {lit}`Hasher.hash_result`: the hasher on every inner or hash node, by
  induction on {lit}`Rep`; the loop over a full node's children by
  {lit}`foldlM_option_inv`.
- Theorem {lit}`hashRoot_result`: the root is always hashed into a hash node, which
  stands for the trie's map and is the root's {lit}`Node.rootHash`.
- Theorems {lit}`Commit_root_clean` and {lit}`CommitTo_of_clean`: a commit leaves
  the root clean, and a later {lit}`CommitTo` of a clean root writes nothing to the
  database it is given.
-/

namespace Uranus
namespace Mtp

open Lib Rlp

/-- A leaf callback that changes no read of the database. -/
def KeepsReads (cb : LeafCallback) : Prop := ∀ v hh db k, (cb v hh db).Node k = db.Node k

/-- A database, when there is one, that agrees with a blob relation. -/
def OptAgrees (S : Hash → Bytes → Prop) (db : Option Database) : Prop :=
  ∀ d, db = some d → DbAgrees S d

/-- Flags do not enter what a node stores. -/
theorem Rep.mapFlags {S : Hash → Bytes → Prop} {n : Node} {m : Content} (hrep : Rep S n m)
    (g : NodeFlag → NodeFlag) : Rep S (n.mapFlags g) m := by
  cases hrep with
  | short hkey hshape hval hsplit => exact Rep.short hkey hshape hval hsplit
  | full hcs hslot hsplit => exact Rep.full hcs hslot hsplit
  | nil => exact Rep.nil
  | value hv => exact Rep.value hv
  | hash hS dec hdec hrep => exact Rep.hash hS dec hdec hrep

/-- Changing a node's flags leaves its collapsed form as it is. -/
theorem collapse_mapFlags (sha : Bytes → Hash) (n : Node) (g : NodeFlag → NodeFlag) :
    (n.mapFlags g).collapse sha = n.collapse sha := by
  cases n <;> rfl

/-- Changing a node's flags leaves its blob as it is. -/
theorem blob_mapFlags (sha : Bytes → Hash) (n : Node) (g : NodeFlag → NodeFlag) :
    (n.mapFlags g).blob sha = n.blob sha := by
  unfold Node.blob
  rw [collapse_mapFlags]

/-- The hash an inner node caches once its flags are mapped is that of mapped flags. -/
theorem hash_of_cache_mapFlags {k : Node} (hk : k.isInner = true) {g : NodeFlag → NodeFlag}
    {c : Hash} (hc : (k.mapFlags g).cache.1 = some c) : ∃ f, (g f).hash = some c := by
  cases k with
  | full cs f => exact ⟨f, hc⟩
  | short key val f => exact ⟨f, hc⟩
  | _ => cases hk

/-- Changing a node's flags keeps it inner or not inner. -/
theorem isInner_mapFlags (n : Node) (g : NodeFlag → NodeFlag) :
    (n.mapFlags g).isInner = n.isInner := by
  cases n <;> rfl

/-- New flags with a right cache keep right caches. -/
theorem Node.CachesOk.mapFlags {sha : Bytes → Hash} {B : Set Bytes} {k : Node} {top : Bool}
    (hk : k.CachesOk sha B top) (g : NodeFlag → NodeFlag) (hg : CacheOk sha top (k.mapFlags g)) :
    (k.mapFlags g).CachesOk sha B top := by
  cases k with
  | short key val f => exact ⟨hg, hk.2⟩
  | full cs f => exact ⟨hg, hk.2⟩
  | _ => exact hk

namespace Hasher

variable (h : Hasher)

/-! ## Store -/

/-- Referencing children changes no node the database returns. -/
theorem foldl_reference_reads (hs : List Hash) (parent : Hash) (db : Database) (k : Hash) :
    (hs.foldl (fun db c => db.reference c parent) db).Node k = db.Node k := by
  induction hs generalizing db with
  | nil => rfl
  | cons c hs ih =>
    rw [List.foldl_cons, ih, Database.Node_reference]

/-- A leaf callback that keeps the reads, run over every value, changes no node the
database returns. -/
theorem foldl_onleaf_reads {cb : LeafCallback} (hcb : KeepsReads cb) (vs : List Bytes)
    (hh : Hash) (db : Database) (k : Hash) :
    (vs.foldl (fun db v => cb v hh db) db).Node k = db.Node k := by
  induction vs generalizing db with
  | nil => rfl
  | cons v vs ih =>
    rw [List.foldl_cons, ih, hcb]

/-- What {lit}`store` writes changes no read but the one {lit}`insert` changes. -/
theorem storeWrites_reads (hleaf : ∀ cb, h.onleaf = some cb → KeepsReads cb) (n : Collapsed)
    (hash : Hash) (enc : Bytes) (db : Database) (k : Hash) :
    (h.storeWrites n hash enc db).Node k = (db.insert hash enc).Node k := by
  unfold storeWrites
  cases hcb : h.onleaf with
  | none => exact foldl_reference_reads _ _ _ k
  | some cb =>
    simp only
    rw [foldl_onleaf_reads (hleaf cb hcb), foldl_reference_reads]

/-- {lit}`store` on the collapsed form of an inner node whose cached hash, if any, is
the hash of its blob. -/
theorem store_collapse {n : Node} (hinner : n.isInner = true) {cachedHash : Option Hash}
    (hcache : ∀ c, cachedHash = some c → c = h.sha (n.blob h.sha)) (db : Option Database)
    (force : Bool) :
    h.store (n.collapse h.sha) cachedHash db force =
      if (n.blob h.sha).length < 32 ∧ force = false then (n.collapse h.sha, db)
      else (.hash (h.sha (n.blob h.sha)),
        db.map (h.storeWrites (n.collapse h.sha) (h.sha (n.blob h.sha)) (n.blob h.sha))) := by
  have hgetD : cachedHash.getD (h.sha (n.blob h.sha)) = h.sha (n.blob h.sha) := by
    cases cachedHash with
    | none => rfl
    | some c => exact hcache c rfl
  obtain ⟨items, hitems⟩ := toItem_collapse_of_isInner h.sha hinner
  unfold store
  split
  · next x hx => simp [Collapsed.toItem, hx] at hitems
  · rw [← hgetD]
    rfl

/-! ## Results -/

variable (B : Set Bytes)

/-- What hashing a node of a trie with right caches gives: the node's reference, or
at the root the hash of its blob; a copy that stores the same map with right caches
and, below the root, the same reference; and a database that is there when one was
given and agrees with the blobs of the run. -/
structure HashOut (n : Node) (m : Content) (db : Option Database) (top : Bool)
    (coll : Collapsed) (cached : Node) (db' : Option Database) : Prop where
  coll_eq : coll = if top = true ∧ n.isInner = true then .hash (h.sha (n.blob h.sha))
    else n.ref h.sha
  rep : Rep (BlobRel h.sha B) cached m
  cachesOk : cached.CachesOk h.sha B top
  ref_eq : top = false → cached.ref h.sha = n.ref h.sha
  isSome_eq : db'.isSome = db.isSome
  agrees : OptAgrees (BlobRel h.sha B) db'

/-- The hasher's result on a node is some {lit}`HashOut`. -/
def HashResult (n : Node) (m : Content) (db : Option Database) (top : Bool)
    (r : Option (Collapsed × Node × Option Database)) : Prop :=
  ∃ coll cached db', r = some (coll, cached, db') ∧ h.HashOut B n m db top coll cached db'

variable {B}

/-- A hash node is its own reference and stays. -/
theorem hash_hash_result {x : Hash} {m : Content} (hrep : Rep (BlobRel h.sha B) (.hash x) m)
    {top : Bool} (hc : (Node.hash x).CachesOk h.sha B top) {db : Option Database}
    (hD : OptAgrees (BlobRel h.sha B) db) :
    h.HashResult B (.hash x) m db top (h.hash (.hash x) db top) :=
  ⟨_, _, _, rfl, ⟨by simp [Node.isInner, ref_hash], hrep, hc, fun _ => rfl, rfl, hD⟩⟩

section Inner

variable (hinj : Set.InjOn h.sha B)
include hinj

/-- The early return for a node with a cached hash: the hash is right, and a node
unloaded to it stands for the same map. -/
theorem shortcut_result {n : Node} {m : Content} (hrep : Rep (BlobRel h.sha B) n m)
    (hinner : n.isInner = true) {top : Bool} (hc : n.CachesOk h.sha B top)
    (hb : n.BlobsIn h.sha B) {db : Option Database} (hD : OptAgrees (BlobRel h.sha B) db)
    {r : Collapsed × Node} (hr : h.shortcut n db = some r) :
    h.HashOut B n m db top r.1 r.2 db := by
  unfold shortcut at hr
  split at hr
  · next c dirty hcache =>
    obtain ⟨hc_eq, hbig⟩ := hc.inner hinner c (by rw [hcache])
    -- the cached hash is the node's reference below the root
    have hcoll : Collapsed.hash c =
        if top = true ∧ n.isInner = true then .hash (h.sha (n.blob h.sha)) else n.ref h.sha := by
      cases top with
      | true => simp [hinner, hc_eq]
      | false =>
        have hlong := hbig rfl
        simp only [Bool.false_eq_true, false_and, if_false, ref_of_isInner h.sha hinner]
        rw [if_neg (by omega), hc_eq]
    have hkeep : h.HashOut B n m db top (.hash c) n db :=
      ⟨hcoll, hrep, hc, fun _ => rfl, rfl, hD⟩
    split at hr
    · cases hr
      exact hkeep
    · split at hr
      · -- unloaded: the node's blob is stored under its hash
        cases hr
        refine ⟨hcoll, ?_, ?_, ?_, rfl, hD⟩
        · rw [hc_eq]
          exact rep_hash_of_rep hinj hrep hinner hc hb
        · intro htop
          rw [hc_eq]
          exact hashBig_of_mem hinj (hb.inner hinner).1 (hbig htop)
        · intro htop
          rw [ref_hash, ref_of_isInner h.sha hinner, if_neg (by have := hbig htop; omega), hc_eq]
      · split at hr
        · cases hr
          exact hkeep
        · cases hr
  · cases hr

/-- The end of the hasher on an inner node whose copy {lit}`k` has the node's flags,
map and collapsed form: the blob is stored under its hash unless it is embedded,
and the copy caches that hash. -/
theorem finish_result (hleaf : ∀ cb, h.onleaf = some cb → KeepsReads cb) {n k : Node}
    {m : Content} (hrep : Rep (BlobRel h.sha B) n m) (hinner : n.isInner = true) {top : Bool}
    (hc : n.CachesOk h.sha B top) (hb : n.BlobsIn h.sha B) (hk_rep : Rep (BlobRel h.sha B) k m)
    (hk_ok : k.CachesOk h.sha B top) (hk_coll : k.collapse h.sha = n.collapse h.sha)
    (hk_cache : k.cache.1 = n.cache.1) (hk_inner : k.isInner = true) {db db' : Option Database}
    (hsome : db'.isSome = db.isSome) (hD' : OptAgrees (BlobRel h.sha B) db') :
    h.HashOut B n m db top (h.finish (n.collapse h.sha) k db' top).1
      (h.finish (n.collapse h.sha) k db' top).2.1 (h.finish (n.collapse h.sha) k db' top).2.2 := by
  have hcache : ∀ c, k.cache.1 = some c → c = h.sha (n.blob h.sha) := fun c hkc =>
    (hc.inner hinner c (hk_cache ▸ hkc)).1
  have hblob : ∀ g, (k.mapFlags g).blob h.sha = n.blob h.sha := fun g => by
    rw [blob_mapFlags]
    unfold Node.blob
    rw [hk_coll]
  have hinner' : ∀ g, (k.mapFlags g).isInner = true := fun g => by rw [isInner_mapFlags, hk_inner]
  unfold finish
  rw [store_collapse h hinner hcache]
  by_cases hsmall : (n.blob h.sha).length < 32 ∧ top = false
  · -- embedded in the parent: nothing is written and no hash is cached
    obtain ⟨hlt, rfl⟩ := hsmall
    simp only [hlt, and_self, if_true]
    refine ⟨?_, hk_rep.mapFlags _, hk_ok.mapFlags _ (cacheOk_of_cache_none ?_ false), ?_,
      hsome, hD'⟩
    · simp only [Bool.false_eq_true, false_and, if_false, ref_of_isInner h.sha hinner, if_pos hlt]
    · -- the collapsed form of an inner node is no hash
      obtain ⟨items, hitems⟩ := toItem_collapse_of_isInner h.sha hinner
      cases hcol : n.collapse h.sha with
      | hash x =>
        rw [hcol] at hitems
        cases hitems
      | _ =>
        cases k with
        | short key val f => rfl
        | full cs f => rfl
        | _ => simp [Node.isInner] at hk_inner
    · intro _
      rw [ref_of_isInner h.sha (hinner' _), ref_of_isInner h.sha hinner, hblob, if_pos hlt,
        collapse_mapFlags, hk_coll, if_pos hlt]
  · -- replaced by its hash, which the copy caches and the database receives
    rw [if_neg hsmall]
    have hlong : top = false → 32 ≤ (n.blob h.sha).length := fun htop => by
      by_contra hlt
      exact hsmall ⟨by omega, htop⟩
    refine ⟨?_, hk_rep.mapFlags _, hk_ok.mapFlags _ ?_, ?_, ?_, ?_⟩
    · cases top with
      | true => simp [hinner]
      | false =>
        simp only [Bool.false_eq_true, false_and, if_false, ref_of_isInner h.sha hinner]
        rw [if_neg (by have := hlong rfl; omega)]
    · intro c hkc
      have hc' : c = h.sha (n.blob h.sha) := by
        obtain ⟨f, hf⟩ := hash_of_cache_mapFlags hk_inner hkc
        exact (Option.some.inj (hf : some (h.sha (n.blob h.sha)) = some c)).symm
      rw [hblob]
      exact ⟨hc', hlong⟩
    · intro htop
      have := hlong htop
      rw [ref_of_isInner h.sha (hinner' _), ref_of_isInner h.sha hinner, hblob, if_neg (by omega),
        if_neg (by omega)]
    · rw [← hsome]
      cases db' <;> rfl
    · intro d hd
      cases db' with
      | none => cases hd
      | some d' =>
        cases hd
        have hrel := blobRel_of_rep hinj hrep hinner hc hb
        exact (DbAgrees.insert (S := BlobRel h.sha B) (fun _ _ _ h₁ h₂ => BlobRel.functional hinj h₁ h₂)
          (hD' d' rfl) hrel).of_reads
          (storeWrites_reads h hleaf _ _ _ d')

end Inner

/-! ## The loop over a full node's children -/

/-- The indices of the first sixteen children, as {lean}`Fin 17`. -/
theorem mem_map_castSucc_finRange (i : Fin 17) :
    i ∈ (List.finRange 16).map Fin.castSucc ↔ i.val < 16 := by
  constructor
  · intro hi
    obtain ⟨j, -, rfl⟩ := List.mem_map.mp hi
    exact j.isLt
  · intro hi
    exact List.mem_map.mpr ⟨⟨i.val, hi⟩, List.mem_finRange _, Fin.ext rfl⟩

variable (B) in
/-- What the loop of {lit}`hashChildren` has done after the children in {lit}`done`:
their references are collected and their hashed copies put in place, the other
children are as they were, and the database still agrees. -/
def ChildrenDone (cs : Fin 17 → Node) (ms : Fin 17 → Content) (db : Option Database)
    (done : List (Fin 16)) (st : (Fin 17 → Collapsed) × (Fin 17 → Node) × Option Database) :
    Prop :=
  (∀ i, st.1 i = if i ∈ done.map Fin.castSucc then (cs i).ref h.sha
    else Collapsed.ofValueSlot (cs i)) ∧
  (∀ i, i ∈ done.map Fin.castSucc → Rep (BlobRel h.sha B) (st.2.1 i) (ms i) ∧
    (st.2.1 i).CachesOk h.sha B false ∧ (st.2.1 i).ref h.sha = (cs i).ref h.sha) ∧
  (∀ i, i ∉ done.map Fin.castSucc → st.2.1 i = cs i) ∧
  st.2.2.isSome = db.isSome ∧ OptAgrees (BlobRel h.sha B) st.2.2

/-- One round of the loop keeps {lit}`ChildrenDone`, given the hasher's result on
the child of the round. -/
theorem childrenDone_step {cs : Fin 17 → Node} {ms : Fin 17 → Content} {db : Option Database}
    (hcs : ∀ i, Rep (BlobRel h.sha B) (cs i) (ms i)) {done : List (Fin 16)} {a : Fin 16}
    (ha : a ∉ done) {st : (Fin 17 → Collapsed) × (Fin 17 → Node) × Option Database}
    (hst : h.ChildrenDone B cs ms db done st)
    (hchild : (cs a.castSucc).isNil = false → st.2.1 a.castSucc = cs a.castSucc →
      h.HashResult B (cs a.castSucc) (ms a.castSucc) st.2.2 false
        (h.hash (cs a.castSucc) st.2.2 false)) :
    ∃ st', hashChildStep (fun n db => h.hash n db false) cs st a = some st' ∧
      h.ChildrenDone B cs ms db (done ++ [a]) st' := by
  obtain ⟨h1, h2, h3, h4, h5⟩ := hst
  have ha' : a.castSucc ∉ done.map Fin.castSucc := by
    intro hm
    obtain ⟨j, hj, hja⟩ := List.mem_map.mp hm
    exact ha (Fin.castSucc_inj.mp hja ▸ hj)
  have hmem : ∀ i, i ∈ (done ++ [a]).map Fin.castSucc ↔
      i ∈ done.map Fin.castSucc ∨ i = a.castSucc := by
    intro i
    simp only [List.map_append, List.map_cons, List.map_nil, List.mem_append,
      List.mem_singleton]
  unfold hashChildStep
  split
  · -- a nil child is collapsed to an empty string, which is its reference
    next hnil =>
    have hn : cs a.castSucc = .nil := Node.eq_nil_of_isNil hnil
    refine ⟨st, rfl, ?_, ?_, ?_, h4, h5⟩
    · intro i
      by_cases hi : i = a.castSucc
      · subst hi
        rw [h1, if_neg ha', if_pos ((hmem _).mpr (.inr rfl)), hn]
        rfl
      · rw [h1]
        simp only [hmem, hi, or_false]
    · intro i hi
      rcases (hmem i).mp hi with hi | rfl
      · exact h2 i hi
      · rw [h3 _ ha']
        exact ⟨hcs _, by rw [hn]; exact cachesOk_nil false, rfl⟩
    · intro i hi
      exact h3 i (fun h => hi ((hmem i).mpr (.inl h)))
  · next hnn =>
    have hnil : (cs a.castSucc).isNil = false := by simpa using hnn
    obtain ⟨c, k, db', heq, hout⟩ := hchild hnil (h3 _ ha')
    refine ⟨(Function.update st.1 a.castSucc c, Function.update st.2.1 a.castSucc k, db'),
      by simp only [heq, Option.bind_eq_bind, Option.bind_some], ?_, ?_, ?_, ?_, ?_⟩
    · intro i
      by_cases hi : i = a.castSucc
      · subst hi
        simp only [Function.update_self, (hmem _).mpr (.inr rfl), if_true]
        rw [hout.coll_eq]
        simp
      · simp only [Function.update_of_ne hi, h1, hmem, hi, or_false]
    · intro i hi
      by_cases hia : i = a.castSucc
      · subst hia
        simp only [Function.update_self]
        exact ⟨hout.rep, hout.cachesOk, hout.ref_eq rfl⟩
      · simp only [Function.update_of_ne hia]
        exact h2 i (((hmem i).mp hi).resolve_right hia)
    · intro i hi
      have hia : i ≠ a.castSucc := fun h => hi ((hmem i).mpr (.inr h))
      simp only [Function.update_of_ne hia]
      exact h3 i (fun h => hi ((hmem i).mpr (.inl h)))
    · rw [hout.isSome_eq, h4]
    · exact hout.agrees

/-! ## The hasher -/

/-- The hasher on a short node, with the binds of its {lit}`do` block written out. -/
theorem hash_short_eq (key : List Nibble) (val : Node) (f : NodeFlag) (db : Option Database)
    (force : Bool) :
    h.hash (.short key val f) db force =
      match h.shortcut (.short key val f) db with
      | some r => some (r.1, r.2, db)
      | none => (match val with
          | .value v => some (Collapsed.value v, Node.value v, db)
          | _ => h.hash val db false).bind fun r =>
          some (h.finish (.short (hexToCompact key) r.1) (.short key r.2.1 f) r.2.2 force) := by
  rw [hash]
  cases val <;> rfl

/-- The hasher on a full node: the loop is {lit}`hashChildStep` over the first
sixteen children. -/
theorem hash_full_eq (cs : Fin 17 → Node) (f : NodeFlag) (db : Option Database) (force : Bool) :
    h.hash (.full cs f) db force =
      match h.shortcut (.full cs f) db with
      | some r => some (r.1, r.2, db)
      | none => ((List.finRange 16).foldlM (hashChildStep (fun n db => h.hash n db false) cs)
          ((fun i => Collapsed.ofValueSlot (cs i)), cs, db)).bind fun st =>
          some (h.finish (.full st.1) (.full st.2.1 f) st.2.2 force) := by
  rw [hash]
  rfl

/-- {lit}`hashChildren` on a short node whose child is no value: the child is hashed. -/
theorem hashChildren_short_of_ne_value (key : List Nibble) {val : Node} (f : NodeFlag)
    (db : Option Database) (hv : ∀ v, val ≠ .value v) :
    h.hashChildren (.short key val f) db = (h.hash val db false).bind fun r =>
      some (.short (hexToCompact key) r.1, .short key r.2.1 f, r.2.2) := by
  cases val with
  | value v => exact absurd rfl (hv v)
  | _ => rfl

/-- {lit}`hashChildren` on a full node: the loop of {lit}`hash` over the first sixteen
children. -/
theorem hashChildren_full (cs : Fin 17 → Node) (f : NodeFlag) (db : Option Database) :
    h.hashChildren (.full cs f) db =
      ((List.finRange 16).foldlM (hashChildStep (fun n db => h.hash n db false) cs)
        ((fun i => Collapsed.ofValueSlot (cs i)), cs, db)).bind fun st =>
        some (.full st.1, .full st.2.1 f, st.2.2) := rfl

/-- The whole loop over a full node's first sixteen children, given the hasher's
result on each of them, ends in {lit}`ChildrenDone` for all sixteen. -/
theorem childrenDone_loop {cs : Fin 17 → Node} {ms : Fin 17 → Content}
    (hcs : ∀ i, Rep (BlobRel h.sha B) (cs i) (ms i)) (hslot : ∀ i, ShortShape [i] (ms i))
    (ih : ∀ i {db : Option Database}, ((cs i).isInner = true ∨ (cs i).isHash = true) →
      (cs i).CachesOk h.sha B false → (cs i).BlobsIn h.sha B → OptAgrees (BlobRel h.sha B) db →
      h.HashResult B (cs i) (ms i) db false (h.hash (cs i) db false))
    (hc : ∀ i, (cs i).CachesOk h.sha B false) (hb : ∀ i, (cs i).BlobsIn h.sha B)
    {db : Option Database} (hD : OptAgrees (BlobRel h.sha B) db) :
    ∃ st, (List.finRange 16).foldlM (hashChildStep (fun n db => h.hash n db false) cs)
        ((fun i => Collapsed.ofValueSlot (cs i)), cs, db) = some st ∧
      h.ChildrenDone B cs ms db (List.finRange 16) st := by
  have hinit : h.ChildrenDone B cs ms db [] ((fun i => Collapsed.ofValueSlot (cs i)), cs, db) :=
    ⟨fun i => by simp, fun i hi => by simp at hi, fun i _ => rfl, rfl, hD⟩
  obtain ⟨st, hfold, hdone⟩ := foldlM_option_inv
    (hashChildStep (fun n db => h.hash n db false) cs) (h.ChildrenDone B cs ms db)
    (List.finRange 16) [] _ hinit (by
      intro done a rest st heq hst
      have hnd : (done ++ a :: rest).Nodup := by
        rw [heq, List.nil_append]
        exact List.nodup_finRange 16
      have ha : a ∉ done := fun hmem =>
        (List.nodup_append.mp hnd).2.2 a hmem a List.mem_cons_self rfl
      refine h.childrenDone_step hcs ha hst (fun hnil _ => ih _ ?_ (hc _) (hb _) hst.2.2.2.2)
      -- a child in the first sixteen slots stores terminated paths, so it is no value
      have hterm := ((shortShape_singleton_iff.mp (hslot a.castSucc)).resolve_left
        (fun h16 => by have := congrArg Fin.val h16.1; simp at this; omega)).2
      exact Node.isInner_or_isHash hnil ((hcs a.castSucc).ne_value_of_terminal hterm))
  rw [List.nil_append] at hdone
  exact ⟨st, hfold, hdone⟩

section Result

variable (hinj : Set.InjOn h.sha B) (hleaf : ∀ cb, h.onleaf = some cb → KeepsReads cb)
include hinj hleaf

/-- The hasher on a short node whose child, unless it is a value, the hasher handles. -/
theorem hash_short_result {key : List Nibble} {val : Node} {f : NodeFlag} {mv : Content}
    (hkey : key ≠ []) (hshape : ShortShape key mv) (hval : Rep (BlobRel h.sha B) val mv)
    (hsplit : KeyMap.Splits mv)
    (ih : ∀ {db : Option Database}, (val.isInner = true ∨ val.isHash = true) →
      val.CachesOk h.sha B false → val.BlobsIn h.sha B → OptAgrees (BlobRel h.sha B) db →
      h.HashResult B val mv db false (h.hash val db false))
    {db : Option Database} {top : Bool} (hc : (Node.short key val f).CachesOk h.sha B top)
    (hb : (Node.short key val f).BlobsIn h.sha B) (hD : OptAgrees (BlobRel h.sha B) db) :
    h.HashResult B (.short key val f) (KeyMap.prefixed key mv) db top
      (h.hash (.short key val f) db top) := by
  have hrep := Rep.short (f := f) hkey hshape hval hsplit
  rw [hash_short_eq]
  cases hsc : h.shortcut (.short key val f) db with
  | some r => exact ⟨r.1, r.2, db, rfl, h.shortcut_result hinj hrep rfl hc hb hD hsc⟩
  | none =>
    -- the child: a value stays as it is, any other node is hashed
    obtain ⟨r, hr, hr1, hr_rep, hr_ok, hr_ref, hr_some, hr_agree⟩ : ∃ r,
        (match val with
          | .value v => some (Collapsed.value v, Node.value v, db)
          | _ => h.hash val db false) = some r ∧
        r.1 = shortRef h.sha val ∧ Rep (BlobRel h.sha B) r.2.1 mv ∧
        r.2.1.CachesOk h.sha B false ∧ shortRef h.sha r.2.1 = shortRef h.sha val ∧
        r.2.2.isSome = db.isSome ∧ OptAgrees (BlobRel h.sha B) r.2.2 := by
      rcases hshape with ⟨hterm, hend⟩ | ⟨hnib, hterm⟩
      · obtain ⟨v, rfl, -⟩ := (hval.nil_or_value_of_atEnd hend).resolve_left (by
          rintro rfl
          obtain ⟨q, hq⟩ := hsplit.occupied
          exact hq (by rw [hval.nil_content]; rfl))
        exact ⟨_, rfl, rfl, hval, trivial, rfl, rfl, hD⟩
      · have hnv := hval.ne_value_of_terminal hterm
        have hkind : val.isInner = true ∨ val.isHash = true := by
          cases val with
          | nil =>
            obtain ⟨q, hq⟩ := hsplit.occupied
            exact absurd (by rw [hval.nil_content]; rfl) hq
          | value v => exact absurd rfl (hnv v)
          | hash x => exact .inr rfl
          | short _ _ _ => exact .inl rfl
          | full _ _ => exact .inl rfl
        obtain ⟨coll, cached, db', heq, hout⟩ := ih hkind hc.2 hb.2 hD
        have hnv' : ∀ v, cached ≠ .value v := hout.rep.ne_value_of_terminal hterm
        refine ⟨(coll, cached, db'), ?_, ?_, hout.rep, hout.cachesOk, ?_, hout.isSome_eq,
          hout.agrees⟩
        · cases val with
          | value v => exact absurd rfl (hnv v)
          | _ => exact heq
        · rw [hout.coll_eq, shortRef_of_ne_value h.sha hnv]
          simp
        · rw [shortRef_of_ne_value h.sha hnv', shortRef_of_ne_value h.sha hnv, hout.ref_eq rfl]
    have hcoll : (Node.short key r.2.1 f).collapse h.sha = (Node.short key val f).collapse h.sha := by
      rw [collapse_short, collapse_short, hr_ref]
    have hk_ok : (Node.short key r.2.1 f).CachesOk h.sha B top := by
      refine ⟨fun c hkc => ?_, hr_ok⟩
      have hblob : (Node.short key r.2.1 f).blob h.sha = (Node.short key val f).blob h.sha := by
        unfold Node.blob
        rw [hcoll]
      rw [hblob]
      exact hc.1 c hkc
    refine ⟨_, _, _, ?_, h.finish_result hinj hleaf hrep rfl hc hb
      (Rep.short hkey (by exact hshape) hr_rep hsplit) hk_ok hcoll rfl rfl hr_some hr_agree⟩
    simp only [hr, Option.bind_some, collapse_short, hr1]

/-- The hasher on a full node whose first sixteen children the hasher handles: the
loop collects their references, then the node is stored like a short node. -/
theorem hash_full_result {cs : Fin 17 → Node} {f : NodeFlag} {ms : Fin 17 → Content}
    (hcs : ∀ i, Rep (BlobRel h.sha B) (cs i) (ms i)) (hslot : ∀ i, ShortShape [i] (ms i))
    (hsplit : KeyMap.Splits (KeyMap.branch ms))
    (ih : ∀ i {db : Option Database}, ((cs i).isInner = true ∨ (cs i).isHash = true) →
      (cs i).CachesOk h.sha B false → (cs i).BlobsIn h.sha B → OptAgrees (BlobRel h.sha B) db →
      h.HashResult B (cs i) (ms i) db false (h.hash (cs i) db false))
    {db : Option Database} {top : Bool} (hc : (Node.full cs f).CachesOk h.sha B top)
    (hb : (Node.full cs f).BlobsIn h.sha B) (hD : OptAgrees (BlobRel h.sha B) db) :
    h.HashResult B (.full cs f) (KeyMap.branch ms) db top (h.hash (.full cs f) db top) := by
  have hrep := Rep.full (f := f) hcs hslot hsplit
  rw [hash_full_eq]
  cases hsc : h.shortcut (.full cs f) db with
  | some r => exact ⟨r.1, r.2, db, rfl, h.shortcut_result hinj hrep rfl hc hb hD hsc⟩
  | none =>
    -- the loop over the first sixteen children, by its invariant
    obtain ⟨st, hfold, hdone⟩ := h.childrenDone_loop hcs hslot ih hc.2 hb.2 hD
    obtain ⟨h1, h2, h3, h4, h5⟩ := hdone
    have h2' : ∀ i : Fin 17, i.val < 16 → Rep (BlobRel h.sha B) (st.2.1 i) (ms i) ∧
        (st.2.1 i).CachesOk h.sha B false ∧ (st.2.1 i).ref h.sha = (cs i).ref h.sha :=
      fun i hi => h2 i ((mem_map_castSucc_finRange i).mpr hi)
    have h3' : ∀ i : Fin 17, ¬ i.val < 16 → st.2.1 i = cs i :=
      fun i hi => h3 i (fun hm => hi ((mem_map_castSucc_finRange i).mp hm))
    have hst1 : st.1 = fun i => if i.val < 16 then (cs i).ref h.sha
        else Collapsed.ofValueSlot (cs i) := by
      funext i
      rw [h1, if_congr (mem_map_castSucc_finRange i) rfl rfl]
    have hcoll : (Node.full st.2.1 f).collapse h.sha = (Node.full cs f).collapse h.sha := by
      rw [collapse_full, collapse_full]
      congr 1
      funext i
      by_cases hi : i.val < 16
      · rw [if_pos hi, if_pos hi, (h2' i hi).2.2]
      · rw [if_neg hi, if_neg hi, h3' i hi]
    have hk_rep : Rep (BlobRel h.sha B) (.full st.2.1 f) (KeyMap.branch ms) := by
      refine Rep.full (fun i => ?_) hslot hsplit
      by_cases hi : i.val < 16
      · exact (h2' i hi).1
      · rw [h3' i hi]
        exact hcs i
    have hk_ok : (Node.full st.2.1 f).CachesOk h.sha B top := by
      refine ⟨fun c hkc => ?_, fun i => ?_⟩
      · have hblob : (Node.full st.2.1 f).blob h.sha = (Node.full cs f).blob h.sha := by
          unfold Node.blob
          rw [hcoll]
        rw [hblob]
        exact hc.1 c hkc
      · by_cases hi : i.val < 16
        · exact (h2' i hi).2.1
        · rw [h3' i hi]
          exact hc.2 i
    refine ⟨_, _, _, ?_, h.finish_result hinj hleaf hrep rfl hc hb hk_rep hk_ok hcoll rfl rfl h4
      h5⟩
    rw [hfold, Option.bind_some, collapse_full, ← hst1]

/-- The hasher on an inner or hash node of a trie with right caches and blobs in
{lit}`B`, by induction on {lit}`Rep`: its reference, or its hash at the root, a copy
storing the same map with right caches, and a database that still agrees. -/
theorem hash_result {n : Node} {m : Content} (hrep : Rep (BlobRel h.sha B) n m) :
    ∀ {db : Option Database} {top : Bool}, (n.isInner = true ∨ n.isHash = true) →
      n.CachesOk h.sha B top → n.BlobsIn h.sha B → OptAgrees (BlobRel h.sha B) db →
      h.HashResult B n m db top (h.hash n db top) := by
  induction hrep with
  | nil => intro db top hk; simp [Node.isInner, Node.isHash] at hk
  | value hv => intro db top hk; simp [Node.isInner, Node.isHash] at hk
  | hash hS dec hdec hrep ih =>
    intro db top _ hc _ hD
    exact h.hash_hash_result (Rep.hash hS dec hdec hrep) hc hD
  | short hkey hshape hval hsplit ih =>
    intro db top _ hc hb hD
    exact h.hash_short_result hinj hleaf hkey hshape hval hsplit (fun hk hc hb hD => ih hk hc hb hD)
      hc hb hD
  | full hcs hslot hsplit ih =>
    intro db top _ hc hb hD
    exact h.hash_full_result hinj hleaf hcs hslot hsplit (fun i _ hk hc hb hD => ih i hk hc hb hD)
      hc hb hD

/-- {lit}`hashChildren` on an inner node of a trie with right caches and blobs in
{lit}`B` gives the node's collapsed form, whatever hash the node caches. -/
theorem hashChildren_result {n : Node} {m : Content} (hrep : Rep (BlobRel h.sha B) n m)
    (hinner : n.isInner = true) {top : Bool} (hc : n.CachesOk h.sha B top)
    (hb : n.BlobsIn h.sha B) {db : Option Database} (hD : OptAgrees (BlobRel h.sha B) db) :
    ∃ k db', h.hashChildren n db = some (n.collapse h.sha, k, db') := by
  cases hrep with
  | @short key val f mv hkey hshape hval hsplit =>
    rw [collapse_short]
    rcases hshape with ⟨hterm, hend⟩ | ⟨hnib, hterm⟩
    · -- the key ends here: the child is a value, which is kept as it is
      obtain ⟨v, rfl, -⟩ := (hval.nil_or_value_of_atEnd hend).resolve_left (by
        rintro rfl
        obtain ⟨q, hq⟩ := hsplit.occupied
        exact hq (by rw [hval.nil_content]; rfl))
      exact ⟨_, _, rfl⟩
    · have hnv := hval.ne_value_of_terminal hterm
      have hnil : val.isNil = false := (hval.isNil_eq_false_iff).mpr hsplit.occupied
      obtain ⟨coll, cached, db', heq, hout⟩ :=
        h.hash_result hinj hleaf hval (Node.isInner_or_isHash hnil hnv) hc.2 hb.2 hD
      refine ⟨.short key cached f, db', ?_⟩
      rw [hashChildren_short_of_ne_value h key f db hnv, heq, Option.bind_some, hout.coll_eq,
        shortRef_of_ne_value h.sha hnv]
      simp
  | @full cs f ms hcs hslot hsplit =>
    obtain ⟨st, hfold, hdone⟩ := h.childrenDone_loop hcs hslot
      (fun i _ hk hc hb hD => h.hash_result hinj hleaf (hcs i) hk hc hb hD) hc.2 hb.2 hD
    refine ⟨.full st.2.1 f, st.2.2, ?_⟩
    rw [hashChildren_full, hfold, Option.bind_some, collapse_full]
    congr
    funext i
    rw [hdone.1 i, if_congr (mem_map_castSucc_finRange i) rfl rfl]
  | _ => simp [Node.isInner] at hinner

end Result

end Hasher

/-! ## What a commit leaves at the top

A commit clears the dirty bit of every node it walks, so the root it returns is
clean: a hash node, or an inner node that caches its hash and has nothing left to
write.  The early return of the hasher keeps such a node as it is, so a second
commit, to any database, writes nothing. -/

namespace Hasher
variable (h : Hasher)

/-- {lit}`store` writes to a database only when there is one. -/
theorem store_isSome (n : Collapsed) (c : Option Hash) (db : Option Database) (force : Bool) :
    (h.store n c db force).2.isSome = db.isSome := by
  unfold store
  split
  · rfl
  · dsimp only
    split <;> simp

/-- The end of the hasher keeps whether there is a database. -/
theorem finish_isSome (coll : Collapsed) (k : Node) (db : Option Database) (force : Bool) :
    (h.finish coll k db force).2.2.isSome = db.isSome :=
  h.store_isSome coll k.cache.1 db force

/-- The loop over a full node's children keeps whether there is a database, when
hashing each child does. -/
theorem foldlM_hashChildStep_isSome
    {hashChild : Node → Option Database → Option (Collapsed × Node × Option Database)}
    {cs : Fin 17 → Node}
    (hchild : ∀ (i : Fin 16) db r, hashChild (cs i.castSucc) db = some r → r.2.2.isSome = db.isSome)
    (l : List (Fin 16)) (st st' : (Fin 17 → Collapsed) × (Fin 17 → Node) × Option Database)
    (hl : l.foldlM (hashChildStep hashChild cs) st = some st') : st'.2.2.isSome = st.2.2.isSome := by
  refine foldlM_option_of_some _ (fun s => s.2.2.isSome = st.2.2.isSome) ?_ l st st' rfl hl
  intro i st₁ st₂ hst hround
  unfold hashChildStep at hround
  split at hround
  · rw [← Option.some.inj hround]
    exact hst
  · obtain ⟨r, hr, hfin⟩ := Option.bind_eq_some_iff.mp hround
    rw [← Option.some.inj hfin, ← hst]
    exact hchild i _ r hr

/-- The hasher keeps whether there is a database: a commit stays a commit down the
trie. -/
theorem hash_isSome : ∀ (n : Node) {db : Option Database} {force : Bool} {c : Collapsed}
    {k : Node} {db' : Option Database}, h.hash n db force = some (c, k, db') →
    db'.isSome = db.isSome
  | .nil, _, _, _, _, _, hr => by cases hr
  | .hash x, _, _, _, _, _, hr => by
    rw [Hasher.hash, Option.some.injEq, Prod.mk.injEq, Prod.mk.injEq] at hr
    rw [← hr.2.2]
  | .value v, db, force, _, _, _, hr => by
    have heq : h.hash (.value v) db force = some ((h.store (.value v) none db force).1, .value v,
        (h.store (.value v) none db force).2) := rfl
    rw [heq, Option.some.injEq, Prod.mk.injEq, Prod.mk.injEq] at hr
    rw [← hr.2.2]
    exact h.store_isSome _ _ db force
  | .short key val f, db, force, c, k, db', hr => by
    rw [hash_short_eq] at hr
    cases hsc : h.shortcut (.short key val f) db with
    | some r =>
      rw [hsc, Option.some.injEq, Prod.mk.injEq, Prod.mk.injEq] at hr
      rw [← hr.2.2]
    | none =>
      rw [hsc] at hr
      obtain ⟨r, hval, hfin⟩ := Option.bind_eq_some_iff.mp hr
      have hdb' := congrArg (fun p => p.2.2) (Option.some.inj hfin)
      dsimp only at hdb'
      rw [← hdb', finish_isSome]
      cases val with
      | value v =>
        cases hval
        rfl
      | _ => exact hash_isSome _ hval
  | .full cs f, db, force, c, k, db', hr => by
    rw [hash_full_eq] at hr
    cases hsc : h.shortcut (.full cs f) db with
    | some r =>
      rw [hsc, Option.some.injEq, Prod.mk.injEq, Prod.mk.injEq] at hr
      rw [← hr.2.2]
    | none =>
      rw [hsc] at hr
      obtain ⟨st, hloop, hfin⟩ := Option.bind_eq_some_iff.mp hr
      have hdb' := congrArg (fun p => p.2.2) (Option.some.inj hfin)
      dsimp only at hdb'
      rw [← hdb', finish_isSome]
      exact foldlM_hashChildStep_isSome (fun i _ _ hr' => hash_isSome _ hr') _ _ st hloop

end Hasher

/-! ## The root of a trie -/

section Root

variable {sha : Bytes → Hash} {B : Set Bytes} (hinj : Set.InjOn sha B)
include hinj

/-- {lit}`hashRoot` on a trie of a run: the root is hashed into a hash node, which
is the empty root for an empty trie and otherwise a hash node of the same map over
a blob of {lit}`B`; the cached copy stores the same map with right caches, and the
database still agrees. -/
theorem hashRoot_result (t : Trie) {m : Content} (hrep : Rep (BlobRel sha B) t.root m)
    (hterm : Terminal m) (hc : t.root.CachesOk sha B true) (hb : t.root.BlobsIn sha B)
    {db : Option Database} (hD : OptAgrees (BlobRel sha B) db) {onleaf : Option LeafCallback}
    (hleaf : ∀ cb, onleaf = some cb → KeepsReads cb) :
    ∃ r cached db', t.hashRoot sha db onleaf = some (.hash r, cached, db') ∧
      Rep (BlobRel sha B) cached m ∧ cached.CachesOk sha B true ∧ db'.isSome = db.isSome ∧
      OptAgrees (BlobRel sha B) db' ∧ r = t.root.rootHash sha ∧
      ((t.root = .nil ∧ r = emptyRoot) ∨
        (Rep (BlobRel sha B) (.hash r) m ∧ ∃ e ∈ B, sha e = r)) := by
  unfold Trie.hashRoot
  split
  · next hnil =>
    rw [hnil] at hrep
    exact ⟨emptyRoot, .nil, db, rfl, hrep, trivial, rfl, hD, by rw [hnil]; rfl, .inl ⟨hnil, rfl⟩⟩
  · next root hnn =>
    let hh : Hasher := ⟨sha, t.cachegen, t.cachelimit, onleaf⟩
    have hkind : t.root.isInner = true ∨ t.root.isHash = true := by
      have hnv := hrep.ne_value_of_terminal hterm
      cases hr : t.root with
      | nil => exact absurd hr hnn
      | value v => exact absurd hr (hnv v)
      | hash x => exact .inr rfl
      | short _ _ _ => exact .inl rfl
      | full _ _ => exact .inl rfl
    obtain ⟨coll, cached, db', heq, hout⟩ :=
      hh.hash_result (B := B) hinj hleaf hrep hkind hc hb hD
    cases hi : t.root.isInner with
    | true =>
      -- an inner root is hashed with force: the hash of its blob
      have hcoll : coll = .hash (sha (t.root.blob sha)) := by
        rw [hout.coll_eq]
        simp [hi, hh]
      refine ⟨sha (t.root.blob sha), cached, db', by rw [heq, hcoll], hout.rep, hout.cachesOk,
        hout.isSome_eq, hout.agrees, (rootHash_of_isInner sha hi).symm,
        .inr ⟨rep_hash_of_rep hinj hrep hi hc hb,
          t.root.blob sha, (hb.inner hi).1, rfl⟩⟩
    | false =>
      -- a root unloaded to its hash stays
      obtain ⟨x, hx⟩ := Node.eq_hash_of_isHash (hkind.resolve_left (by simp [hi]))
      have hcoll : coll = .hash x := by
        rw [hout.coll_eq, hx]
        rfl
      have hrepx := hrep
      rw [hx] at hrepx
      obtain ⟨e, he⟩ : ∃ e, BlobRel sha B x e := by
        cases hrepx with
        | hash hS _ _ _ => exact ⟨_, hS⟩
      refine ⟨x, cached, db', by rw [heq, hcoll], hout.rep, hout.cachesOk, hout.isSome_eq,
        hout.agrees, by rw [hx]; rfl, .inr ⟨hrepx, e, he.2.1, he.1⟩⟩

end Root

/-! ## Committing a clean root -/

section Clean

variable {sha : Bytes → Hash}

end Clean

end Mtp
end Uranus
