import Uranus.Mtp.Run

/-!
# The root hash is a function of the map

The shape {lit}`Rep` gives a map is unique up to two choices: which subtrees are
unloaded to hash nodes, and the flags.  Neither changes what the hasher computes.
So two tries storing one map with right caches have one root hash, and with the
run invariant the root hash does not depend on the history: two runs from empty
tries that build one abstract map hash to one root, whatever the order of their
updates, the keys they deleted on the way, and where they hashed or committed.

Main results:

- Theorem {lit}`rep_agree`: two nodes storing one map with right caches collapse
  alike, stand for one root hash, and are referenced alike below the root; by
  induction on the first node's {lit}`Rep`.
- Theorem {lit}`Hash_history_independent`: two runs from empty tries that build
  one map hash to one root.
-/

namespace Uranus
namespace Mtp

open Lib

/-! ## Nodes given by their map -/

section Content

variable {S : Hash → Bytes → Prop}

/-- The only node that represents the empty map is nil. -/
theorem Rep.eq_nil_of_empty {n : Node} (h : Rep S n KeyMap.empty) : n = .nil := by
  cases hn : n.isNil with
  | true => cases n <;> simp_all [Node.isNil]
  | false =>
    obtain ⟨q, hq⟩ := h.occupied hn
    exact absurd rfl hq

/-- The only node that represents a single value at the empty key is that value. -/
theorem Rep.eq_value_of_leaf {n : Node} {v : Bytes} (h : Rep S n (KeyMap.leaf v)) :
    n = .value v := by
  rcases h.leaf_or_terminal with ⟨w, rfl, hw⟩ | hterm
  · rw [KeyMap.leaf_injective hw]
  · exact absurd rfl (hterm [] (by simp)).ne_nil

/-- After a terminator a node is given by its map. -/
theorem Rep.unique_of_atEnd {n₁ n₂ : Node} {m : Content} (h₁ : Rep S n₁ m) (h₂ : Rep S n₂ m)
    (hend : AtEnd m) : n₁ = n₂ := by
  rcases h₁.nil_or_value_of_atEnd hend with rfl | ⟨v, rfl, -⟩
  · rw [h₁.nil_content] at h₂
    exact h₂.eq_nil_of_empty.symm
  · rw [h₁.value_content] at h₂
    exact h₂.eq_value_of_leaf.symm

/-- The value slot of a full node holds a map after the terminator. -/
theorem atEnd_of_slot {ms : Fin 17 → Content} (hslot : ∀ i, ShortShape [i] (ms i)) {i : Fin 17}
    (hi : ¬ i.val < 16) : AtEnd (ms i) := by
  rcases shortShape_singleton_iff.mp (hslot i) with ⟨-, hend⟩ | ⟨hne, -⟩
  · exact hend
  · exact absurd (Fin.ext (by omega : i.val = 16)) hne

end Content

/-! ## Agreement of two nodes -/

section Agree

variable (sha : Bytes → Uranus.Hash)

/-- What two nodes storing one map have in common for the hasher: two nodes that are
no hash nodes collapse alike, both stand for one root hash, and below the root a
parent references them alike. -/
structure Agree (n₁ n₂ : Node) (top₁ top₂ : Bool) : Prop where
  collapse_eq : n₁.isHash = false → n₂.isHash = false → n₁.collapse sha = n₂.collapse sha
  rootHash_eq : n₁.rootHash sha = n₂.rootHash sha
  ref_eq : top₁ = false → top₂ = false → n₁.ref sha = n₂.ref sha

variable {sha}

/-- A node agrees with itself at any positions. -/
theorem Agree.refl (n : Node) (top₁ top₂ : Bool) : Agree sha n n top₁ top₂ :=
  ⟨fun _ _ => rfl, rfl, fun _ _ => rfl⟩

/-- Agreement of two nodes does not depend on their order. -/
theorem Agree.symm {n₁ n₂ : Node} {top₁ top₂ : Bool} (h : Agree sha n₁ n₂ top₁ top₂) :
    Agree sha n₂ n₁ top₂ top₁ :=
  ⟨fun h₂ h₁ => (h.collapse_eq h₁ h₂).symm, h.rootHash_eq.symm,
    fun h₂ h₁ => (h.ref_eq h₁ h₂).symm⟩

/-- Only an inner node collapses like an inner node. -/
theorem isInner_of_collapse_eq {n₁ n₂ : Node} (h₁ : n₁.isInner = true)
    (hc : n₁.collapse sha = n₂.collapse sha) : n₂.isInner = true := by
  cases n₁ <;> cases n₂ <;> simp_all [Node.isInner, Node.collapse]

/-- Inner nodes that collapse alike agree. -/
theorem agree_of_collapse_eq {n₁ n₂ : Node} (h₁ : n₁.isInner = true)
    (hc : n₁.collapse sha = n₂.collapse sha) (top₁ top₂ : Bool) : Agree sha n₁ n₂ top₁ top₂ := by
  have h₂ := isInner_of_collapse_eq h₁ hc
  have hblob : n₁.blob sha = n₂.blob sha := congrArg Collapsed.encode hc
  refine ⟨fun _ _ => hc, ?_, fun _ _ => ?_⟩
  · rw [rootHash_of_isInner sha h₁, rootHash_of_isInner sha h₂, hblob]
  · rw [ref_of_isInner sha h₁, ref_of_isInner sha h₂, hblob, hc]

variable {B : Set Bytes}

/-- A hash node over the blob of an inner node agrees with it: the hash stands for the
blob, and below the root the blob is long, so a parent references the node by that
hash. -/
theorem agree_hash_of_blob {n : Node} {y : Uranus.Hash} {e : Bytes} (hn : n.isInner = true)
    (hblob : n.blob sha = e) (hS : BlobRel sha B y e) (top₁ top₂ : Bool)
    (hbig : top₂ = false → HashBig sha B y) : Agree sha n (.hash y) top₁ top₂ := by
  refine ⟨fun _ h => (by cases h), ?_, fun _ htop => ?_⟩
  · rw [rootHash_of_isInner sha hn, hblob, hS.1]
    rfl
  · have hlong : 32 ≤ (n.blob sha).length := hblob ▸ hbig htop e hS.2.1 hS.1
    rw [ref_of_isInner sha hn, if_neg (by omega), hblob, hS.1]
    rfl

/-- A hash node of a run stands for a blob that decodes to an inner node of that blob,
storing the hash node's map with right caches. -/
theorem Rep.hash_decoded {x : Uranus.Hash} {m : Content} (h : Rep (BlobRel sha B) (.hash x) m) :
    ∃ e d, BlobRel sha B x e ∧ Rep (BlobRel sha B) d m ∧ d.isInner = true ∧ d.blob sha = e ∧
      d.CachesOk sha B true := by
  cases h with
  | @hash _ e _ hS dec hdec hrep =>
    have hdec0 : decodeNode (some (sha e)) e 0 = .ok (dec 0) := by
      rw [hS.1]
      exact hdec 0
    obtain ⟨hblob, hc⟩ := hS.2.2 0 (dec 0) hdec0
    exact ⟨e, dec 0, hS, hrep 0, decodeNode_isInner (hdec 0), hblob, hc⟩

/-- An inner node agrees with every node of its map once it collapses like every such
node that is no hash node: a hash node stands for its decoded node. -/
theorem agree_of_inner {n₁ : Node} {m : Content} {top₁ : Bool} (h₁ : n₁.isInner = true)
    (hcoll : ∀ {n₂ : Node} {top₂ : Bool}, n₂.isHash = false → Rep (BlobRel sha B) n₂ m →
      n₂.CachesOk sha B top₂ → n₁.collapse sha = n₂.collapse sha)
    {n₂ : Node} {top₂ : Bool} (h₂ : Rep (BlobRel sha B) n₂ m) (hc₂ : n₂.CachesOk sha B top₂) :
    Agree sha n₁ n₂ top₁ top₂ := by
  cases hh : n₂.isHash with
  | false => exact agree_of_collapse_eq h₁ (hcoll hh h₂ hc₂) top₁ top₂
  | true =>
    obtain ⟨y, rfl⟩ := Node.eq_hash_of_isHash hh
    obtain ⟨e, d, hS, hrep, hd, hblob, hcd⟩ := h₂.hash_decoded
    have hc := hcoll (Node.isHash_eq_false_of_isInner hd) hrep hcd
    have hblob₁ : n₁.blob sha = e := (congrArg Collapsed.encode hc).trans hblob
    exact agree_hash_of_blob h₁ hblob₁ hS top₁ top₂ hc₂

end Agree

/-! ## Canonical shapes agree -/

section Shapes

variable {sha : Bytes → Uranus.Hash} {B : Set Bytes}

/-- The child of a short node: a value after the terminator is given by its map, any
other child is referenced alike. -/
theorem shortRef_eq_of_agree {key : List Nibble} {val₁ val₂ : Node} {m : Content}
    (hshape : ShortShape key m) (h₁ : Rep (BlobRel sha B) val₁ m)
    (h₂ : Rep (BlobRel sha B) val₂ m) (hag : Agree sha val₁ val₂ false false) :
    shortRef sha val₁ = shortRef sha val₂ := by
  rcases hshape with ⟨-, hend⟩ | ⟨-, hterm⟩
  · rw [h₁.unique_of_atEnd h₂ hend]
  · rw [shortRef_of_ne_value sha (h₁.ne_value_of_terminal hterm),
      shortRef_of_ne_value sha (h₂.ne_value_of_terminal hterm)]
    exact hag.ref_eq rfl rfl

/-- A short node collapses like every node of its map that is no hash node: the map
splits below the key, so that node is a short node of the same key over the same
child map. -/
theorem short_collapse_eq {key : List Nibble} {val : Node} {f : NodeFlag} {mv : Content}
    (hkey : key ≠ []) (hshape : ShortShape key mv) (hval : Rep (BlobRel sha B) val mv)
    (hsplit : KeyMap.Splits mv) (hc : val.CachesOk sha B false)
    (ih : ∀ {n₂ : Node} {top₁ top₂ : Bool}, Rep (BlobRel sha B) n₂ mv →
      val.CachesOk sha B top₁ → n₂.CachesOk sha B top₂ → Agree sha val n₂ top₁ top₂)
    {n₂ : Node} {top₂ : Bool} (hn₂ : n₂.isHash = false)
    (h₂ : Rep (BlobRel sha B) n₂ (KeyMap.prefixed key mv)) (hc₂ : n₂.CachesOk sha B top₂) :
    (Node.short key val f).collapse sha = n₂.collapse sha := by
  obtain ⟨a, p, rfl⟩ := List.exists_cons_of_ne_nil hkey
  generalize hm : KeyMap.prefixed (a :: p) mv = m₂ at h₂
  cases h₂ with
  | nil =>
    obtain ⟨q, hq⟩ := hm ▸ (KeyMap.occupied_prefixed_iff (a :: p) mv).mpr hsplit.occupied
    exact absurd rfl hq
  | value hv => exact absurd hm.symm (KeyMap.leaf_ne_prefixed_cons _ a p mv)
  | short hkey' hshape' hval' hsplit' =>
    obtain ⟨rfl, rfl⟩ := KeyMap.prefixed_inj hsplit hsplit' hm
    rw [collapse_short, collapse_short,
      shortRef_eq_of_agree hshape hval hval' (ih hval' hc hc₂.2)]
  | full hcs hslot hsplit' => exact absurd hm (KeyMap.prefixed_cons_ne_branch a p mv hsplit')
  | hash hS dec hdec hrep => cases hn₂

/-- A full node collapses like every node of its map that is no hash node: that node
is a full node over the same child maps. -/
theorem full_collapse_eq {cs : Fin 17 → Node} {f : NodeFlag} {ms : Fin 17 → Content}
    (hcs : ∀ i, Rep (BlobRel sha B) (cs i) (ms i)) (hslot : ∀ i, ShortShape [i] (ms i))
    (hsplit : KeyMap.Splits (KeyMap.branch ms)) (hc : ∀ i, (cs i).CachesOk sha B false)
    (ih : ∀ i {n₂ : Node} {top₁ top₂ : Bool}, Rep (BlobRel sha B) n₂ (ms i) →
      (cs i).CachesOk sha B top₁ → n₂.CachesOk sha B top₂ → Agree sha (cs i) n₂ top₁ top₂)
    {n₂ : Node} {top₂ : Bool} (hn₂ : n₂.isHash = false)
    (h₂ : Rep (BlobRel sha B) n₂ (KeyMap.branch ms)) (hc₂ : n₂.CachesOk sha B top₂) :
    (Node.full cs f).collapse sha = n₂.collapse sha := by
  generalize hm : KeyMap.branch ms = m₂ at h₂
  cases h₂ with
  | nil =>
    obtain ⟨q, hq⟩ := hm ▸ hsplit.occupied
    exact absurd rfl hq
  | value hv => exact absurd hm.symm (KeyMap.leaf_ne_branch _ ms)
  | @short key _ _ mv hkey' _ _ _ =>
    obtain ⟨a, p, rfl⟩ := List.exists_cons_of_ne_nil hkey'
    exact absurd hm.symm (KeyMap.prefixed_cons_ne_branch a p mv hsplit)
  | full hcs' hslot' hsplit' =>
    obtain rfl := KeyMap.branch_injective hm
    rw [collapse_full, collapse_full]
    congr 1
    funext i
    split
    · exact (ih i (hcs' i) (hc i) (hc₂.2 i)).ref_eq rfl rfl
    · -- the value slot holds nil or a value, given by its map
      next hi => rw [(hcs i).unique_of_atEnd (hcs' i) (atEnd_of_slot hslot hi)]
  | hash hS dec hdec hrep => cases hn₂

/-- Two nodes storing one map with right caches agree, by induction on the first
node's {lit}`Rep`.  A nil or value node is given by its map; a short or full node
collapses like the other node, or like the decoded node of a hash node; a hash node
stands for its decoded node. -/
theorem rep_agree {n₁ : Node} {m : Content} (h₁ : Rep (BlobRel sha B) n₁ m) :
    ∀ {n₂ : Node} {top₁ top₂ : Bool}, Rep (BlobRel sha B) n₂ m → n₁.CachesOk sha B top₁ →
      n₂.CachesOk sha B top₂ → Agree sha n₁ n₂ top₁ top₂ := by
  induction h₁ with
  | nil =>
    intro n₂ top₁ top₂ h₂ _ _
    rw [h₂.eq_nil_of_empty]
    exact Agree.refl _ _ _
  | value hv =>
    intro n₂ top₁ top₂ h₂ _ _
    rw [h₂.eq_value_of_leaf]
    exact Agree.refl _ _ _
  | short hkey hshape hval hsplit ih =>
    intro n₂ top₁ top₂ h₂ hc₁ hc₂
    exact agree_of_inner rfl
      (fun hn₂ h₂ hc₂ => short_collapse_eq hkey hshape hval hsplit hc₁.2 ih hn₂ h₂ hc₂) h₂ hc₂
  | full hcs hslot hsplit ih =>
    intro n₂ top₁ top₂ h₂ hc₁ hc₂
    exact agree_of_inner rfl
      (fun hn₂ h₂ hc₂ => full_collapse_eq hcs hslot hsplit hc₁.2 ih hn₂ h₂ hc₂) h₂ hc₂
  | @hash x e _ hS dec hdec hrep ih =>
    intro n₂ top₁ top₂ h₂ hc₁ hc₂
    -- the hash node stands for its decoded node, which agrees with the other node
    have hdec0 : decodeNode (some (sha e)) e 0 = .ok (dec 0) := by
      rw [hS.1]
      exact hdec 0
    obtain ⟨hblob, hcd⟩ := hS.2.2 0 (dec 0) hdec0
    have hd := decodeNode_isInner (hdec 0)
    refine ⟨fun h _ => (by cases h), ?_, fun htop₁ htop₂ => ?_⟩
    · rw [← (ih 0 h₂ hcd hc₂).rootHash_eq, rootHash_of_isInner sha hd, hblob, hS.1]
      rfl
    · -- below the root the blob is long, so the decoded node is referenced by its hash
      have hbig : 32 ≤ ((dec 0).blob sha).length := hblob ▸ hc₁ htop₁ e hS.2.1 hS.1
      rw [← (ih 0 h₂ (hcd.of_top hd hbig false) hc₂).ref_eq rfl htop₂, ref_of_isInner sha hd,
        if_neg (by omega), hblob, hS.1]
      rfl

end Shapes

/-! ## Runs -/

section Runs

variable {sha : Bytes → Uranus.Hash} {B : Set Bytes}

/-- Two runs of {lit}`TryUpdate`, {lit}`TryDelete`, {lit}`Hash`, {lit}`Commit` and
{lit}`CommitTo`, with reopenings at committed roots, from empty tries of one key
prefix over content-addressed databases, with blobs drawn from a set on which the
hash has no collision and hits neither reserved root: when both succeed and build
one abstract map, {lit}`Hash` returns one root for both. -/
theorem Hash_history_independent (hinj : Set.InjOn sha B)
    (hres : ∀ e ∈ B, sha e ≠ Uranus.Hash.zero ∧ sha e ≠ emptyRoot) {t₁ t₂ : Trie}
    (hroot₁ : t₁.root = .nil) (hroot₂ : t₂.root = .nil) (hp : t₁.keyPrefix = t₂.keyPrefix)
    (hdb₁ : ContentAddressed sha B t₁.db) (hdb₂ : ContentAddressed sha B t₂.db)
    (ops₁ ops₂ : List Op) (hrun₁ : RunWithin sha B t₁ ops₁) (hrun₂ : RunWithin sha B t₂ ops₂)
    (hsame : abstractRun ops₁ (fun _ => none) = abstractRun ops₂ (fun _ => none))
    {u₁ u₂ : Trie} (he₁ : exec sha ops₁ t₁ = .ok u₁) (he₂ : exec sha ops₂ t₂ = .ok u₂) :
    ∃ r u₁' u₂', u₁.Hash sha = some (r, u₁') ∧ u₂.Hash sha = some (r, u₂') := by
  obtain ⟨hp₁, m₁, hv₁, habs₁⟩ := exec_ok_inv hinj hres (runInv_empty hinj hroot₁ hdb₁) hrun₁ he₁
  obtain ⟨hp₂, m₂, hv₂, habs₂⟩ := exec_ok_inv hinj hres (runInv_empty hinj hroot₂ hdb₂) hrun₂ he₂
  -- both tries store the one map that holds the abstract map under the prefix
  have hm : m₁ = m₂ := by
    rw [hp₁, hp, hsame] at habs₁
    rw [hp₂] at habs₂
    exact habs₁.unique habs₂
  subst hm
  obtain ⟨r₁, u₁', hh₁, hr₁, -, -⟩ := hv₁.hash hinj (hrun₁.final he₁)
  obtain ⟨r₂, u₂', hh₂, hr₂, -, -⟩ := hv₂.hash hinj (hrun₂.final he₂)
  refine ⟨r₁, u₁', u₂', hh₁, ?_⟩
  rw [hh₂, hr₁, hr₂, (rep_agree hv₁.rep hv₂.rep hv₁.cachesOk hv₂.cachesOk).rootHash_eq]

/-- The theorem on a key inserted into an empty trie and deleted again, against the
empty run, with a constant hash and the blob of the one node the run builds. -/
theorem Hash_history_independent_delete :
    let sha : Bytes → Uranus.Hash := fun _ => ⟨List.replicate 32 1, by decide⟩
    let t₀ : Trie := ⟨Database.NewDatabase (fun _ => none), .nil, emptyRoot, [], 0, 0⟩
    ∃ r u₁' u₂', t₀.Hash sha = some (r, u₁') ∧ t₀.Hash sha = some (r, u₂') := by
  intro sha t₀
  let short : Node := .short [0, 1, 16] (.value [2]) ⟨none, 0, true⟩
  have hupd : t₀.TryUpdate [1] [2] = .ok { t₀ with root := short } := rfl
  have hdel : ({ t₀ with root := short } : Trie).TryDelete [1] = .ok t₀ := rfl
  have hdb : ContentAddressed sha {short.blob sha} t₀.db := by
    intro h e hn hne
    by_cases hz : h = Uranus.Hash.zero
    · subst hz
      cases hn
      exact absurd rfl hne
    · simp [t₀, Database.NewDatabase, Database.Node, Database.cached, hz] at hn
  refine Hash_history_independent (Set.injOn_singleton _ _) (fun e _ => ⟨by decide, by decide⟩)
    rfl rfl rfl hdb hdb [] [.update [1] [2], .delete [1]] trivial ?_ ?_ rfl rfl
  · -- the update builds the one short node, and the deletion removes it
    refine ⟨trivial, trivial, fun t' ht' => ?_⟩
    rw [show Op.apply sha (.update [1] [2]) t₀ = t₀.TryUpdate [1] [2] from rfl, hupd] at ht'
    cases ht'
    refine ⟨⟨⟨rfl, by decide⟩, trivial⟩, trivial, fun t'' ht'' => ?_⟩
    rw [show Op.apply sha (.delete [1]) { t₀ with root := short } =
      ({ t₀ with root := short } : Trie).TryDelete [1] from rfl, hdel] at ht''
    cases ht''
    trivial
  · funext k
    by_cases hk : k = [1] <;> simp [abstractRun, Op.abstract, hk]

end Runs

end Mtp
end Uranus
