import Uranus.Mtp.Caches

/-!
# The walks keep right caches

{lit}`insert` and {lit}`delete` give every node they build a fresh flag, which
carries no hash, and otherwise keep subtrees of the old trie or nodes they resolved
from the database.  So they keep {lit}`Node.CachesOk`: the old subtrees had right
caches, and a resolved node has right caches because the blob it was read from is
the one its hash stands for.

Main results:

- Theorems {lit}`insertWith_cachesOk` and {lit}`deleteWith_cachesOk`: one level of
  each walk, by induction on {lit}`Rep`.
- Theorems {lit}`TryUpdate_cachesOk` and {lit}`TryDelete_cachesOk`: the updates of
  a trie keep right caches at its root.
-/

namespace Uranus
namespace Mtp

open Lib

variable {sha : Bytes → Hash} {B : Set Bytes} (t : Trie)

/-! ## Nodes the walks build -/

/-- A node with a fresh flag carries no hash, so its cache is right anywhere. -/
theorem short_newFlag_cachesOk {key : List Nibble} {val : Node} (hval : val.CachesOk sha B false)
    (top : Bool) : (Node.short key val t.newFlag).CachesOk sha B top :=
  ⟨cacheOk_of_cache_none rfl top, hval⟩

/-- A full node with a fresh flag over children with right caches has right caches. -/
theorem full_newFlag_cachesOk {cs : Fin 17 → Node} (hcs : ∀ i, (cs i).CachesOk sha B false)
    (top : Bool) : (Node.full cs t.newFlag).CachesOk sha B top :=
  ⟨cacheOk_of_cache_none rfl top, hcs⟩

/-- Setting a child with right caches keeps every child's caches right. -/
theorem setChild_cachesOk {cs : Fin 17 → Node} (hcs : ∀ i, (cs i).CachesOk sha B false)
    {c : Node} (hc : c.CachesOk sha B false) (k : Fin 17) :
    ∀ i, (setChild cs k c i).CachesOk sha B false := by
  intro i
  by_cases hi : i = k
  · subst hi
    rw [setChild_same]
    exact hc
  · rw [setChild_ne cs c hi]
    exact hcs i

/-- Inserting into the empty node keeps the caches right. -/
theorem insertNil_cachesOk {key : List Nibble} {value : Node} (hv : value.CachesOk sha B false) :
    (t.insertNil key value).CachesOk sha B false := by
  unfold Trie.insertNil
  split
  · exact hv
  · exact short_newFlag_cachesOk t hv false

/-- Branching two nodes with right caches gives a node with right caches. -/
theorem branch_cachesOk {nkey key : List Nibble} {nval value : Node}
    (hnval : nval.CachesOk sha B false) (hv : value.CachesOk sha B false) (matchlen : Nat)
    (a b : Nibble) (top : Bool) : (t.branch nkey nval key value matchlen a b).CachesOk sha B top := by
  refine full_newFlag_cachesOk t (setChild_cachesOk (setChild_cachesOk (fun _ => cachesOk_nil false)
    (insertNil_cachesOk t hnval) a) (insertNil_cachesOk t hv) b) top

/-! ## Insertion -/

section Insert

variable {v : Bytes}

/-- At the end of the key the inserted value takes the node's place. -/
theorem insertWith_nil_node
    {next : Node → List Nibble → List Nibble → Node → Except TrieError (Bool × Node)}
    {n : Node} {pfx : List Nibble} {d : Bool} {n' : Node}
    (h : t.insertWith next n pfx [] (.value v) = .ok (d, n')) : n' = .value v := by
  cases n with
  | value w =>
    simp only [Trie.insertWith] at h
    cases h
    rfl
  | _ =>
    simp only [Trie.insertWith] at h
    cases h
    rfl

/-- One level of the insertion keeps right caches, given a next level that does. -/
theorem insertWith_cachesOk (hD : DbAgrees (BlobRel sha B) t.db)
    {next : Node → List Nibble → List Nibble → Node → Except TrieError (Bool × Node)}
    (hnext : ∀ n m pfx q top d n', Rep (BlobRel sha B) n m → n.CachesOk sha B top →
      next n pfx q (.value v) = .ok (d, n') → n'.CachesOk sha B top)
    {n : Node} {m : Content} (hrep : Rep (BlobRel sha B) n m) :
    ∀ {top : Bool} pfx q {d : Bool} {n' : Node}, n.CachesOk sha B top →
      t.insertWith next n pfx q (.value v) = .ok (d, n') → n'.CachesOk sha B top := by
  induction hrep with
  | nil =>
    intro top pfx q d n' _ h
    cases q with
    | nil => rw [insertWith_nil_node t h]; trivial
    | cons k ks =>
      simp only [Trie.insertWith] at h
      cases h
      exact short_newFlag_cachesOk t (cachesOk_value false v) top
  | value hw =>
    intro top pfx q d n' _ h
    cases q with
    | nil => rw [insertWith_nil_node t h]; trivial
    | cons k ks => simp [Trie.insertWith] at h
  | @short key val f m hkey hshape hval hsplit ih =>
    intro top pfx q d n' hc h
    cases q with
    | nil => rw [insertWith_nil_node t h]; trivial
    | cons k ks =>
      simp only [Trie.insertWith] at h
      split at h
      · -- the whole key of the short node matches: insert below it
        split at h
        · cases h
        · cases h
          exact hc
        · next nn hr =>
          cases h
          exact short_newFlag_cachesOk t (ih _ _ hc.2 hr) top
      · -- the keys differ: a branch, under a short node of the common part
        split at h
        · split at h
          · cases h
            exact branch_cachesOk t hc.2 (cachesOk_value false v) _ _ _ top
          · cases h
            exact short_newFlag_cachesOk t (branch_cachesOk t hc.2 (cachesOk_value false v) _ _ _ false) top
        · cases h
  | @full cs f ms hcs hslot hsplit ih =>
    intro top pfx q d n' hc h
    cases q with
    | nil => rw [insertWith_nil_node t h]; trivial
    | cons k ks =>
      simp only [Trie.insertWith] at h
      split at h
      · cases h
      · cases h
        exact hc
      · next nn hr =>
        cases h
        exact full_newFlag_cachesOk t (setChild_cachesOk hc.2 (ih k _ _ (hc.2 k) hr) k) top
  | @hash h enc m hS dec hdec hrep ih =>
    intro top pfx q d n' hc hr
    cases q with
    | nil => rw [insertWith_nil_node t hr]; trivial
    | cons k ks =>
      simp only [Trie.insertWith] at hr
      split at hr
      · cases hr
      · next rn hres =>
        have hrn := resolveHash_cachesOk t hD (Rep.hash hS dec hdec hrep) hc hres
        split at hr
        · cases hr
        · cases hr
          exact hrn
        · next nn hnn =>
          cases hr
          rcases resolveHash_spec t hD (Rep.hash hS dec hdec hrep) pfx with
            ⟨n₀, hres₀, hrep₀, -⟩ | ⟨e, hres₀⟩
          · rw [hres] at hres₀
            cases hres₀
            exact hnext _ _ _ _ _ _ _ hrep₀ hrn hnn
          · rw [hres] at hres₀
            cases hres₀

/-- The insertion with any number of levels keeps right caches. -/
theorem insert_cachesOk (hD : DbAgrees (BlobRel sha B) t.db) :
    ∀ (F : Nat) {n : Node} {m : Content}, Rep (BlobRel sha B) n m →
      ∀ {top : Bool} pfx q {d : Bool} {n' : Node}, n.CachesOk sha B top →
        t.insert F n pfx q (.value v) = .ok (d, n') → n'.CachesOk sha B top := by
  intro F
  induction F with
  | zero =>
    intro n m _ top pfx q d n' _ h
    cases h
  | succ F ih =>
    intro n m hrep top pfx q d n' hc h
    exact insertWith_cachesOk t hD (fun n m pfx q top d n' hrep hc h => ih hrep pfx q hc h)
      hrep pfx q hc h

end Insert

/-! ## Deletion -/

/-- {lit}`resolve` keeps a node that is no hash node. -/
theorem resolve_of_isHash_false {n : Node} (hn : n.isHash = false) (pfx : List Nibble) :
    t.resolve n pfx = .ok n := by
  cases n with
  | hash h => simp [Node.isHash] at hn
  | _ => rfl

/-- The short node a full node with one child left becomes has right caches. -/
theorem collapseChild_cachesOk {cs : Fin 17 → Node} (hcs : ∀ i, (cs i).CachesOk sha B false)
    {pos : Fin 17} {pfx : List Nibble}
    (hres : ∀ d, t.resolve (cs pos) pfx = .ok d → d.CachesOk sha B false) {n' : Node}
    (h : t.collapseChild cs pos pfx = .ok n') (top : Bool) :
    n'.CachesOk sha B top ∧ n'.isHash = false := by
  unfold Trie.collapseChild at h
  split at h
  · split at h
    · cases h
    · next ck cv f hr =>
      -- merged with a short child: its child moves up
      cases h
      exact ⟨short_newFlag_cachesOk t (hres _ hr).2 top, rfl⟩
    · cases h
      exact ⟨short_newFlag_cachesOk t (hcs pos) top, rfl⟩
  · cases h
    exact ⟨short_newFlag_cachesOk t (hcs pos) top, rfl⟩

/-- One level of the deletion keeps right caches, and a changed node is no hash node,
given a next level that does both. -/
theorem deleteWith_cachesOk (hD : DbAgrees (BlobRel sha B) t.db)
    {next : Node → List Nibble → List Nibble → Except TrieError (Bool × Node)}
    (hnext : ∀ n m pfx q top d n', Rep (BlobRel sha B) n m → n.CachesOk sha B top →
      next n pfx q = .ok (d, n') → n'.CachesOk sha B top ∧ (d = true → n'.isHash = false))
    {n : Node} {m : Content} (hrep : Rep (BlobRel sha B) n m) :
    ∀ {top : Bool} pfx q {d : Bool} {n' : Node}, n.CachesOk sha B top →
      t.deleteWith next n pfx q = .ok (d, n') →
        n'.CachesOk sha B top ∧ (d = true → n'.isHash = false) := by
  induction hrep with
  | nil =>
    intro top pfx q d n' _ h
    simp only [Trie.deleteWith] at h
    cases h
    exact ⟨trivial, nofun⟩
  | value hw =>
    intro top pfx q d n' _ h
    simp only [Trie.deleteWith] at h
    cases h
    exact ⟨trivial, fun _ => rfl⟩
  | @short key val f m hkey hshape hval hsplit ih =>
    intro top pfx q d n' hc h
    simp only [Trie.deleteWith] at h
    split at h
    · -- the key leaves the short node's key: nothing changes
      cases h
      exact ⟨hc, nofun⟩
    · split at h
      · cases h
        exact ⟨trivial, fun _ => rfl⟩
      · -- delete below, then merge a short child into this node
        split at h
        · cases h
        · cases h
          exact ⟨hc, nofun⟩
        · next ck cv fc hr =>
          cases h
          exact ⟨short_newFlag_cachesOk t (ih _ _ hc.2 hr).1.2 top, fun _ => rfl⟩
        · next child _ hr =>
          cases h
          exact ⟨short_newFlag_cachesOk t (ih _ _ hc.2 hr).1 top, fun _ => rfl⟩
  | @full cs f ms hcs hslot hsplit ih =>
    intro top pfx q d n' hc h
    cases q with
    | nil => simp [Trie.deleteWith] at h
    | cons k ks =>
      simp only [Trie.deleteWith] at h
      split at h
      · cases h
      · cases h
        exact ⟨hc, nofun⟩
      · next nn hr =>
        obtain ⟨hnn, hnh⟩ := ih k _ _ (hc.2 k) hr
        have hcs' := setChild_cachesOk hc.2 hnn k
        split at h
        · next pos _ =>
          -- one child left: the node collapses into a short node
          obtain ⟨hcol, -⟩ : t.collapseChild (setChild cs k nn) pos pfx = .ok n' ∧ d = true := by
            cases hcol : t.collapseChild (setChild cs k nn) pos pfx with
            | error e => simp [hcol, Except.map] at h
            | ok n'' =>
              simp only [hcol, Except.map, Except.ok.injEq, Prod.mk.injEq] at h
              obtain ⟨rfl, rfl⟩ := h
              exact ⟨rfl, rfl⟩
          -- the child left is resolved: the changed one is no hash node
          have hres : ∀ d', t.resolve (setChild cs k nn pos) pfx = .ok d' →
              d'.CachesOk sha B false := by
            intro d' hd
            by_cases hpk : pos = k
            · subst hpk
              rw [setChild_same, resolve_of_isHash_false t (hnh rfl)] at hd
              cases hd
              exact hnn
            · rw [setChild_ne cs nn hpk] at hd
              exact resolve_cachesOk t hD (hcs pos) (hc.2 pos) hd
          obtain ⟨hok, hnh'⟩ := collapseChild_cachesOk t hcs' hres hcol top
          exact ⟨hok, fun _ => hnh'⟩
        · cases h
          exact ⟨full_newFlag_cachesOk t hcs' top, fun _ => rfl⟩
  | @hash h enc m hS dec hdec hrep ih =>
    intro top pfx q d n' hc hr
    simp only [Trie.deleteWith] at hr
    split at hr
    · cases hr
    · next rn hres =>
      have hrn := resolveHash_cachesOk t hD (Rep.hash hS dec hdec hrep) hc hres
      split at hr
      · cases hr
      · cases hr
        exact ⟨hrn, nofun⟩
      · next nn hnn =>
        cases hr
        rcases resolveHash_spec t hD (Rep.hash hS dec hdec hrep) pfx with
          ⟨n₀, hres₀, hrep₀, -⟩ | ⟨e, hres₀⟩
        · rw [hres] at hres₀
          cases hres₀
          exact hnext _ _ _ _ _ _ _ hrep₀ hrn hnn
        · rw [hres] at hres₀
          cases hres₀

/-- The deletion with any number of levels keeps right caches. -/
theorem delete_cachesOk (hD : DbAgrees (BlobRel sha B) t.db) :
    ∀ (F : Nat) {n : Node} {m : Content}, Rep (BlobRel sha B) n m →
      ∀ {top : Bool} pfx q {d : Bool} {n' : Node}, n.CachesOk sha B top →
        t.delete F n pfx q = .ok (d, n') → n'.CachesOk sha B top ∧ (d = true → n'.isHash = false) := by
  intro F
  induction F with
  | zero =>
    intro n m _ top pfx q d n' _ h
    cases h
  | succ F ih =>
    intro n m hrep top pfx q d n' hc h
    exact deleteWith_cachesOk t hD (fun n m pfx q top d n' hrep hc h => ih hrep pfx q hc h)
      hrep pfx q hc h

/-! ## Updates of a trie -/

/-- {lit}`TryUpdate` keeps right caches at the root. -/
theorem TryUpdate_cachesOk (hD : DbAgrees (BlobRel sha B) t.db) {m : Content}
    (hrep : Rep (BlobRel sha B) t.root m) (hc : t.root.CachesOk sha B true) {key value : Bytes}
    {t' : Trie} (h : t.TryUpdate key value = .ok t') : t'.root.CachesOk sha B true := by
  unfold Trie.TryUpdate at h
  split at h
  · cases hr : t.insert (Trie.levels (keybytesToHex (t.keyPrefix ++ key))) t.root []
        (keybytesToHex (t.keyPrefix ++ key)) (.value value) with
    | error e => simp [hr, Except.map] at h
    | ok r =>
      simp only [hr, Except.map, Except.ok.injEq] at h
      subst h
      exact insert_cachesOk t hD _ hrep [] _ hc hr
  · cases hr : t.delete (Trie.levels (keybytesToHex (t.keyPrefix ++ key))) t.root []
        (keybytesToHex (t.keyPrefix ++ key)) with
    | error e => simp [hr, Except.map] at h
    | ok r =>
      simp only [hr, Except.map, Except.ok.injEq] at h
      subst h
      exact (delete_cachesOk t hD _ hrep [] _ hc hr).1

/-- {lit}`TryDelete` keeps right caches at the root. -/
theorem TryDelete_cachesOk (hD : DbAgrees (BlobRel sha B) t.db) {m : Content}
    (hrep : Rep (BlobRel sha B) t.root m) (hc : t.root.CachesOk sha B true) {key : Bytes}
    {t' : Trie} (h : t.TryDelete key = .ok t') : t'.root.CachesOk sha B true := by
  unfold Trie.TryDelete at h
  cases hr : t.delete (Trie.levels (keybytesToHex (t.keyPrefix ++ key))) t.root []
      (keybytesToHex (t.keyPrefix ++ key)) with
  | error e => simp [hr, Except.map] at h
  | ok r =>
    simp only [hr, Except.map, Except.ok.injEq] at h
    subst h
    exact (delete_cachesOk t hD _ hrep [] _ hc hr).1

end Mtp
end Uranus
