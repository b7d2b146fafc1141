import Uranus.Mtp.IterRun
import Uranus.Mtp.Run

/-!
# Iterating a trie enumerates its map

The walk of a trie's root meets exactly the values of the map the trie stores, each
once, in the order of their hex keys ({lit}`Walks.sorted`, {lit}`Walks.mem_iff`), when
every hash node of the trie is in its database ({lit}`Loaded`).  Hashing the trie,
which the iterators do first, only changes flags, so the walk of the hashed root is
the same ({lit}`Hasher.hash_walks`), and hashing it again changes nothing.

The order is that of the hex keys, with the terminator 16 above every nibble: a key
comes after the keys that extend it.  So the iteration is not in byte order when
one key is a proper prefix of another, and a seek to a start key also passes the
stored keys that are proper prefixes of it.

Main results:

- Theorem {lit}`NodeIterator_enumerates`: the iterator over
  {lit}`Trie.NodeIterator` returns each entry of the map whose hex key is not before
  the start's, once, with its full key, in increasing order of hex keys, and ends
  with no error.
- Theorem {lit}`PrefixIterator_enumerates`: the same over {lit}`Trie.PrefixIterator`
  for the entries under the prefix; with the empty prefix, every entry.
-/

namespace Uranus
namespace Mtp

open Lib

/-! ## Hashing without a database keeps the walk -/

namespace Hasher

variable (h : Hasher)

/-- Without a database the early return keeps the node, under its cached hash. -/
theorem shortcut_none {n : Node} {r : Collapsed × Node} (hsc : h.shortcut n none = some r) :
    r.2 = n ∧ ∃ x, r.1 = .hash x ∧ n.cache.1 = some x := by
  unfold shortcut at hsc
  split at hsc
  · next hash dirty hcache =>
    simp only [Option.isNone_none, if_true, Option.some.injEq] at hsc
    subst hsc
    exact ⟨rfl, hash, rfl, by rw [hcache]⟩
  · cases hsc

/-- The end of the hasher returns the copy with new flags. -/
theorem finish_mapFlags {coll : Collapsed} {cached : Node} {db : Option Database} {force : Bool}
    {c : Collapsed} {k : Node} {d : Option Database} (hfin : h.finish coll cached db force = (c, k, d)) :
    ∃ g, k = cached.mapFlags g := by
  unfold finish at hfin
  generalize h.store coll cached.cache.1 db force = p at hfin
  obtain ⟨hashed, db'⟩ := p
  exact ⟨_, (congrArg (fun q : Collapsed × Node × Option Database => q.2.1) hfin).symm⟩

/-- Without a database the hasher keeps a node nil or not. -/
theorem hash_isNil_none {n : Node} {force : Bool} {c : Collapsed} {k : Node}
    {d : Option Database} (hr : h.hash n none force = some (c, k, d)) : k.isNil = n.isNil := by
  cases n with
  | nil => cases hr
  | hash x =>
    simp only [Hasher.hash, Option.some.injEq, Prod.mk.injEq] at hr
    rw [← hr.2.1]
  | value v =>
    have heq : h.hash (.value v) none force =
        some ((h.store (.value v) none none force).1, .value v, (h.store (.value v) none none force).2) :=
      rfl
    rw [heq, Option.some.injEq, Prod.mk.injEq, Prod.mk.injEq] at hr
    rw [← hr.2.1]
  | short key val f =>
    rw [hash_short_eq] at hr
    cases hsc : h.shortcut (.short key val f) none with
    | some r =>
      rw [hsc, Option.some.injEq, Prod.mk.injEq, Prod.mk.injEq] at hr
      rw [← hr.2.1, (h.shortcut_none hsc).1]
    | none =>
      rw [hsc] at hr
      obtain ⟨r, -, hfin⟩ := Option.bind_eq_some_iff.mp hr
      obtain ⟨g, rfl⟩ := h.finish_mapFlags (Option.some.inj hfin)
      rfl
  | full cs f =>
    rw [hash_full_eq] at hr
    cases hsc : h.shortcut (.full cs f) none with
    | some r =>
      rw [hsc, Option.some.injEq, Prod.mk.injEq, Prod.mk.injEq] at hr
      rw [← hr.2.1, (h.shortcut_none hsc).1]
    | none =>
      rw [hsc] at hr
      obtain ⟨st, -, hfin⟩ := Option.bind_eq_some_iff.mp hr
      obtain ⟨g, rfl⟩ := h.finish_mapFlags (Option.some.inj hfin)
      rfl

/-- Without a database the hasher keeps the walk: the node it returns has the same
children, with hashes cached in their flags, and the same hash nodes.  By induction on
the walk; the loop over a full node's children keeps, child by child, the walk of
each and whether it is nil. -/
theorem hash_walks {db : Database} {g : UInt16} {p : List Nibble} {n : Node}
    {L : List (List Nibble × Bytes)} {k : Nat} (hw : Walks db g p n L k) :
    ∀ {force : Bool} {c : Collapsed} {n' : Node} {d : Option Database},
      h.hash n none force = some (c, n', d) → Walks db g p n' L k := by
  induction hw with
  | nil => intro _ _ _ _ hr; cases hr
  | @value p v hterm hkey =>
    intro force c n' d hr
    have heq : h.hash (.value v) none force =
        some ((h.store (.value v) none none force).1, .value v, (h.store (.value v) none none force).2) :=
      rfl
    rw [heq, Option.some.injEq, Prod.mk.injEq, Prod.mk.injEq] at hr
    rw [← hr.2.1]
    exact .value hterm hkey
  | @hash p x enc n L k hn hne hdec hwalk _ =>
    intro force c n' d hr
    simp only [Hasher.hash, Option.some.injEq, Prod.mk.injEq] at hr
    rw [← hr.2.1]
    exact .hash hn hne hdec hwalk
  | @short p key val f L k hterm hval ih =>
    intro force c n' d hr
    rw [hash_short_eq] at hr
    cases hsc : h.shortcut (.short key val f) none with
    | some r =>
      rw [hsc, Option.some.injEq, Prod.mk.injEq, Prod.mk.injEq] at hr
      rw [← hr.2.1, (h.shortcut_none hsc).1]
      exact .short hterm hval
    | none =>
      rw [hsc] at hr
      obtain ⟨r, hchild, hfin⟩ := Option.bind_eq_some_iff.mp hr
      obtain ⟨gf, rfl⟩ := h.finish_mapFlags (Option.some.inj hfin)
      -- a value child is kept, any other child is hashed
      have hval' : Walks db g (p ++ key) r.2.1 L k := by
        cases val with
        | value v =>
          cases hchild
          exact hval
        | _ => exact ih hchild
      exact .short hterm hval'
  | @full p cs f Ls ks hterm hcs ih =>
    intro force c n' d hr
    rw [hash_full_eq] at hr
    cases hsc : h.shortcut (.full cs f) none with
    | some r =>
      rw [hsc, Option.some.injEq, Prod.mk.injEq, Prod.mk.injEq] at hr
      rw [← hr.2.1, (h.shortcut_none hsc).1]
      exact .full hterm hcs
    | none =>
      rw [hsc] at hr
      obtain ⟨st, hloop, hfin⟩ := Option.bind_eq_some_iff.mp hr
      obtain ⟨gf, rfl⟩ := h.finish_mapFlags (Option.some.inj hfin)
      -- the loop keeps the database absent, each child nil or not, and the walk of each
      have hinv := Lib.foldlM_option_of_some _
        (fun s : (Fin 17 → Collapsed) × (Fin 17 → Node) × Option Database => s.2.2 = none ∧
          ∀ i, (s.2.1 i).isNil = (cs i).isNil ∧
            (i ∈ nonNilIndices cs → Walks db g (p ++ [i]) (s.2.1 i) (Ls i) (ks i)))
        (by
          intro i s s' hinv₀ hround
          obtain ⟨hdb, hs⟩ := hinv₀
          unfold hashChildStep at hround
          split at hround
          · rw [← Option.some.inj hround]
            exact ⟨hdb, hs⟩
          · rename_i hnn
            obtain ⟨r, hr', hfin'⟩ := Option.bind_eq_some_iff.mp hround
            rw [← Option.some.inj hfin']
            rw [hdb] at hr'
            have hmem : i.castSucc ∈ nonNilIndices cs := by
              rw [mem_nonNilIndices]
              simpa using hnn
            refine ⟨?_, fun j => ?_⟩
            · have := h.hash_isSome _ hr'
              simpa using this
            · by_cases hj : j = i.castSucc
              · subst hj
                simp only [Function.update_self]
                exact ⟨h.hash_isNil_none hr', fun _ => ih _ hmem hr'⟩
              · simp only [Function.update_of_ne hj]
                exact hs j)
        (List.finRange 16) _ st ⟨rfl, fun i => ⟨rfl, hcs i⟩⟩ hloop
      have hidx : nonNilIndices st.2.1 = nonNilIndices cs :=
        List.filter_congr fun i _ => by rw [(hinv.2 i).1]
      have hwalk := Walks.full (f := gf f) hterm
        (fun i (hi : i ∈ nonNilIndices st.2.1) => (hinv.2 i).2 (hidx ▸ hi))
      rw [hidx] at hwalk
      exact hwalk

/-- Without a database the end of the hasher caches in the copy the hash it returns. -/
theorem finish_cache {coll : Collapsed} {cached : Node} (hinner : cached.isInner = true)
    {db : Option Database} {force : Bool} {x : Hash} {k : Node} {d : Option Database}
    (hfin : h.finish coll cached db force = (.hash x, k, d)) :
    k.isInner = true ∧ k.cache.1 = some x := by
  unfold finish at hfin
  generalize h.store coll cached.cache.1 db force = p at hfin
  obtain ⟨hashed, db'⟩ := p
  simp only [Prod.mk.injEq] at hfin
  obtain ⟨rfl, rfl, -⟩ := hfin
  refine ⟨by rw [isInner_mapFlags, hinner], ?_⟩
  cases cached with
  | full cs f => rfl
  | short key val f => rfl
  | _ => cases hinner

/-- Without a database an inner node with a cached hash is returned as it is, under
that hash. -/
theorem hash_of_cache {k : Node} (hk : k.isInner = true) {x : Hash} (hc : k.cache.1 = some x)
    (force : Bool) : h.hash k none force = some (.hash x, k, none) := by
  have hsc : h.shortcut k none = some (.hash x, k) := by
    unfold shortcut
    split
    · next hash dirty hcache =>
      rw [hcache] at hc
      cases hc
      rfl
    · next hcache =>
      rw [hcache] at hc
      cases hc
  cases k with
  | short key val f => rw [hash_short_eq, hsc]
  | full cs f => rw [hash_full_eq, hsc]
  | _ => cases hk

/-- Hashing again without a database changes nothing: an inner node comes back with
the hash it returned cached, and a hash or value node as it was. -/
theorem hash_again {n : Node} {force : Bool} {x : Hash} {k : Node} {d : Option Database}
    (hr : h.hash n none force = some (.hash x, k, d)) :
    h.hash k none force = some (.hash x, k, none) := by
  cases n with
  | nil => cases hr
  | hash y =>
    simp only [Hasher.hash, Option.some.injEq, Prod.mk.injEq, Collapsed.hash.injEq] at hr
    obtain ⟨rfl, rfl, -⟩ := hr
    rfl
  | value v =>
    have heq : h.hash (.value v) none force =
        some ((h.store (.value v) none none force).1, .value v, (h.store (.value v) none none force).2) :=
      rfl
    have hnone : (h.store (.value v) none none force).2 = none := by
      simpa using h.store_isSome (.value v) none none force
    rw [heq, Option.some.injEq, Prod.mk.injEq, Prod.mk.injEq] at hr
    obtain ⟨hx, rfl, -⟩ := hr
    rw [heq, hx, hnone]
  | short key val f =>
    rw [hash_short_eq] at hr
    cases hsc : h.shortcut (.short key val f) none with
    | some r =>
      rw [hsc, Option.some.injEq, Prod.mk.injEq, Prod.mk.injEq] at hr
      obtain ⟨hk, y, hy, hc⟩ := h.shortcut_none hsc
      obtain ⟨hx, rfl, -⟩ := hr
      rw [hk]
      rw [hx] at hy
      cases hy
      exact h.hash_of_cache rfl hc force
    | none =>
      rw [hsc] at hr
      obtain ⟨r, -, hfin⟩ := Option.bind_eq_some_iff.mp hr
      obtain ⟨hk, hc⟩ := h.finish_cache rfl (Option.some.inj hfin)
      exact h.hash_of_cache hk hc force
  | full cs f =>
    rw [hash_full_eq] at hr
    cases hsc : h.shortcut (.full cs f) none with
    | some r =>
      rw [hsc, Option.some.injEq, Prod.mk.injEq, Prod.mk.injEq] at hr
      obtain ⟨hk, y, hy, hc⟩ := h.shortcut_none hsc
      obtain ⟨hx, rfl, -⟩ := hr
      rw [hk]
      rw [hx] at hy
      cases hy
      exact h.hash_of_cache rfl hc force
    | none =>
      rw [hsc] at hr
      obtain ⟨st, -, hfin⟩ := Option.bind_eq_some_iff.mp hr
      obtain ⟨hk, hc⟩ := h.finish_cache rfl (Option.some.inj hfin)
      exact h.hash_of_cache hk hc force

end Hasher

/-- {lit}`Hash` of a hashed trie returns the same root and the same trie: the iterators,
which hash the trie they are given, find it as {lit}`Trie.Hash` left it. -/
theorem Trie.Hash_again {sha : Bytes → Uranus.Hash} {t t' : Trie} {r : Uranus.Hash}
    (hh : t.Hash sha = some (r, t')) : t'.Hash sha = some (r, t') := by
  unfold Trie.Hash at hh
  split at hh
  · next root cached d heq =>
    simp only [Option.some.injEq, Prod.mk.injEq] at hh
    obtain ⟨rfl, rfl⟩ := hh
    unfold Trie.hashRoot at heq
    split at heq
    · next hnil =>
      simp only [Option.some.injEq, Prod.mk.injEq, Collapsed.hash.injEq] at heq
      obtain ⟨rfl, rfl, -⟩ := heq
      simp [Trie.Hash, Trie.hashRoot]
    · next hnn =>
      have hagain := Hasher.hash_again _ heq
      have hcached : cached ≠ .nil := by
        rintro rfl
        cases hagain
      have hroot : ({ t with root := cached } : Trie).hashRoot sha none none =
          some (.hash root, cached, none) := by
        unfold Trie.hashRoot
        split
        · next hnil => exact absurd hnil hcached
        · exact hagain
      simp only [Trie.Hash, hroot]
  · cases hh

/-! ## The walk of a trie's map

A node that stores a map walks to the map's values, with their paths, when every hash
node below it is in the database.  The walk meets each value once, and by the labels of
a full node's children, in the order of the paths. -/

/-- {lit}`Loaded db g n`: every hash node below {lit}`n` is in the database, under a
blob that decodes at generation {lit}`g` to a node that is loaded in turn. -/
inductive Loaded (db : Database) (g : UInt16) : Node → Prop
  | nil : Loaded db g .nil
  | value (v : Bytes) : Loaded db g (.value v)
  | short {key : List Nibble} {val : Node} {f : NodeFlag} (hval : Loaded db g val) :
      Loaded db g (.short key val f)
  | full {cs : Fin 17 → Node} {f : NodeFlag} (hcs : ∀ i, Loaded db g (cs i)) :
      Loaded db g (.full cs f)
  | hash {h : Hash} {enc : Bytes} {n : Node} (hn : db.Node h = some enc) (hne : enc ≠ [])
      (hdec : decodeNode (some h) enc g = .ok n) (hload : Loaded db g n) : Loaded db g (.hash h)

/-- Where a node storing {lit}`m` stands on the walk: at a path without the
terminator over a terminal map, or at a terminated path over a map at the end. -/
def PathFits (p : List Nibble) (m : Content) : Prop :=
  (hasTerm p = false ∧ Terminal m) ∨ (hasTerm p = true ∧ AtEnd m)

/-- The terminator of a path is that of its last part. -/
theorem hasTerm_append_of_ne_nil (p : List Nibble) {q : List Nibble} (hq : q ≠ []) :
    hasTerm (p ++ q) = hasTerm q := by
  simp [hasTerm, List.getLast?_append_of_ne_nil _ hq]

/-- The child of a short node, or of a full node at a nibble, fits the walk: the shape
of its key decides whether its path has the terminator. -/
theorem pathFits_of_shortShape (p : List Nibble) {key : List Nibble} {m : Content}
    (hkey : key ≠ []) (hshape : ShortShape key m) : PathFits (p ++ key) m := by
  rw [PathFits, hasTerm_append_of_ne_nil p hkey]
  rcases hshape with ⟨⟨l, rfl, -⟩, hend⟩ | ⟨hnib, hterm⟩
  · exact .inr ⟨hasTerm_append_terminator l, hend⟩
  · exact .inl ⟨hasTerm_of_isNibbles hnib, hterm⟩

/-- A node that stores {lit}`m` and is loaded walks, at a path it fits, to the values
of {lit}`m` with the path in front of their keys.  By induction on the
representation; a hash node walks as the node its blob decodes to, which the
database agreeing with the blob relation fixes. -/
theorem Rep.walks {S : Hash → Bytes → Prop} {db : Database} {g : UInt16} (hD : DbAgrees S db)
    {n : Node} {m : Content} (hrep : Rep S n m) :
    ∀ {p : List Nibble}, Loaded db g n → PathFits p m → (n.isNil = false ∨ hasTerm p = false) →
      (∀ q, m q ≠ none → (hexToKeybytes (p ++ q)).isSome) →
      ∃ L k, Walks db g p n L k ∧ ∀ q v, (q, v) ∈ L ↔ ∃ r, q = p ++ r ∧ m r = some v := by
  induction hrep with
  | nil =>
    intro p _ _ hnil _
    refine ⟨[], 1, .nil (hnil.resolve_left (by simp [Node.isNil])), fun q v => ?_⟩
    simp
  | @value v hv =>
    intro p _ hpos _ hkey
    -- a value stands at a terminated path
    have hterm : hasTerm p = true := by
      rcases hpos with ⟨-, hT⟩ | ⟨ht, -⟩
      · exact absurd rfl (hT [] (by simp)).ne_nil
      · exact ht
    have hk := hkey [] (by simp)
    rw [List.append_nil] at hk
    refine ⟨[(p, v)], 1, .value hterm hk, fun q w => ?_⟩
    constructor
    · intro hmem
      obtain ⟨rfl, rfl⟩ := Prod.mk.inj (List.mem_singleton.mp hmem)
      exact ⟨[], by simp, rfl⟩
    · rintro ⟨r, rfl, hr⟩
      cases r with
      | nil => simpa using hr.symm
      | cons a r => simp at hr
  | @short key val f m' hkey' hshape hval hsplit ih =>
    intro p hload hpos _ hkey
    cases hload with
    | short hl =>
    -- a short node stores keys that go on past its own, so it is not at the end
    have hterm : hasTerm p = false := by
      rcases hpos with ⟨ht, -⟩ | ⟨-, hend⟩
      · exact ht
      · obtain ⟨q, hq⟩ := hsplit.occupied
        have hnil := hend (key ++ q) (by rwa [KeyMap.prefixed_apply_append])
        exact absurd (List.append_eq_nil_iff.mp hnil).1 hkey'
    obtain ⟨L, k, hw, hmem⟩ := ih hl (pathFits_of_shortShape p hkey' hshape)
      (.inl (hval.isNil_eq_false_iff.mpr hsplit.occupied))
      (fun q hq => by
        rw [List.append_assoc]
        exact hkey (key ++ q) (by rwa [KeyMap.prefixed_apply_append]))
    refine ⟨L, k + 1, .short hterm hw, fun q v => ?_⟩
    rw [hmem]
    simp only [KeyMap.prefixed_eq_some_iff]
    constructor
    · rintro ⟨r, rfl, hr⟩
      exact ⟨key ++ r, by simp, r, rfl, hr⟩
    · rintro ⟨r', rfl, r, rfl, hr⟩
      exact ⟨r, by simp, hr⟩
  | @full cs f ms hcs hslot hsplit ih =>
    intro p hload hpos _ hkey
    cases hload with
    | full hl =>
    -- a full node stores no value at its own path, so it is not at the end
    have hterm : hasTerm p = false := by
      rcases hpos with ⟨ht, -⟩ | ⟨-, hend⟩
      · exact ht
      · obtain ⟨q, hq⟩ := hsplit.occupied
        have hnil := hend q hq
        subst hnil
        exact absurd (KeyMap.branch_nil ms) hq
    -- each child that is not nil walks at its nibble
    have hchild : ∀ i, ∃ L k, i ∈ nonNilIndices cs → Walks db g (p ++ [i]) (cs i) L k ∧
        ∀ q v, (q, v) ∈ L ↔ ∃ r, q = p ++ [i] ++ r ∧ ms i r = some v := by
      intro i
      by_cases hi : i ∈ nonNilIndices cs
      · obtain ⟨L, k, hw, hmem⟩ := ih i (hl i)
          (pathFits_of_shortShape p (List.cons_ne_nil _ _) (hslot i))
          (.inl ((mem_nonNilIndices _ _).mp hi))
          (fun q hq => by
            rw [List.append_assoc]
            exact hkey (i :: q) hq)
        exact ⟨L, k, fun _ => ⟨hw, hmem⟩⟩
      · exact ⟨[], 0, fun h => absurd h hi⟩
    choose Ls ks hLs using hchild
    refine ⟨_, _, .full hterm fun i hi => (hLs i hi).1, fun q v => ?_⟩
    simp only [List.mem_flatMap, KeyMap.branch_eq_some_iff]
    constructor
    · rintro ⟨i, hi, hq⟩
      obtain ⟨r, rfl, hr⟩ := ((hLs i hi).2 q v).mp hq
      exact ⟨i :: r, by simp, i, r, rfl, hr⟩
    · rintro ⟨r', rfl, i, r, rfl, hr⟩
      -- a child holding a value is not nil
      have hi : i ∈ nonNilIndices cs := by
        rw [mem_nonNilIndices, (hcs i).isNil_eq_false_iff]
        exact ⟨r, by rw [hr]; simp⟩
      exact ⟨i, hi, ((hLs i hi).2 _ v).mpr ⟨r, by simp, hr⟩⟩
  | @hash x enc m hS dec hdec hrep ih =>
    intro p hload hpos _ hkey
    cases hload with
    | @hash _ enc' n' hn hne hdec' hl =>
    -- the database returns the blob of the relation, which decodes to the node stored
    have henc : enc' = enc := hD x enc enc' hS hn hne
    rw [henc, hdec g] at hdec'
    have hnode : dec g = n' := by
      injection hdec'
    rw [← hnode] at hl
    obtain ⟨L, k, hw, hmem⟩ := ih g hl hpos
      (.inl (Node.isNil_eq_false_of_isInner (decodeNode_isInner (hdec g)))) hkey
    exact ⟨L, k + 1, .hash (henc ▸ hn) (henc ▸ hne) (hdec g) hw, hmem⟩

/-- The walk of a node meets its values in the order of their paths: each path
branches off below the paths after it.  By induction on the walk; the values below two
children of a full node come in the order of the children's labels. -/
theorem Walks.sorted {db : Database} {g : UInt16} {p : List Nibble} {n : Node}
    {L : List (List Nibble × Bytes)} {k : Nat} (h : Walks db g p n L k) :
    L.Pairwise fun a b => Branches a.1 b.1 := by
  induction h with
  | nil => exact .nil
  | value => exact List.pairwise_singleton _ _
  | short _ _ ih => exact ih
  | @full p cs f Ls ks _ hcs ih =>
    refine List.pairwise_flatMap.mpr ⟨ih, ?_⟩
    refine (pairwise_nonNilIndices cs).imp_of_mem fun {i j} hi hj hij a ha b hb => ?_
    obtain ⟨r, hr⟩ := (hcs i hi).isPrefix_of_mem a ha
    obtain ⟨s, hs⟩ := (hcs j hj).isPrefix_of_mem b hb
    rw [← hr, ← hs]
    exact ((show Branches [i] [j] from .inl hij).prepend p).append r s
  | hash _ _ _ _ ih => exact ih

/-! ## Hex order and byte order

The walk meets the values in the order of their hex keys.  On the spellings of byte
keys that is the order of the bytes, but the terminator that closes a hex key is above
every nibble: a key comes after the keys it is a proper prefix of. -/

/-- Bytes compare as their high nibbles, then their low nibbles. -/
theorem byte_lt_iff (a b : UInt8) :
    a < b ↔ hiNibble a < hiNibble b ∨ (hiNibble a = hiNibble b ∧ loNibble a < loNibble b) := by
  rw [UInt8.lt_iff_toNat_lt, Fin.lt_def, Fin.lt_def, Fin.ext_iff]
  simp only [hiNibble, loNibble]
  omega

/-- Bytes are equal when their nibbles are. -/
theorem byte_eq_iff (a b : UInt8) : a = b ↔ hiNibble a = hiNibble b ∧ loNibble a = loNibble b := by
  rw [← UInt8.toNat_inj, Fin.ext_iff, Fin.ext_iff]
  simp only [hiNibble, loNibble]
  omega

/-- Spelling keeps the order of byte keys. -/
theorem spell_lt_spell_iff (x y : Bytes) : spell x < spell y ↔ x < y := by
  induction x generalizing y with
  | nil =>
    cases y with
    | nil => exact ⟨fun h => absurd h (List.not_lt_nil _), fun h => absurd h (List.not_lt_nil _)⟩
    | cons b y => exact ⟨fun _ => List.nil_lt_cons b y, fun _ => List.nil_lt_cons _ _⟩
  | cons a x ih =>
    cases y with
    | nil => exact ⟨fun h => absurd h (List.not_lt_nil _), fun h => absurd h (List.not_lt_nil _)⟩
    | cons b y =>
      simp only [spell_cons, List.cons_lt_cons_iff, ih, byte_lt_iff, byte_eq_iff, and_or_left,
        or_assoc, and_assoc]

/-- Spelling keeps the prefixes of byte keys. -/
theorem spell_prefix_spell_iff (x y : Bytes) : spell x <+: spell y ↔ x <+: y := by
  induction x generalizing y with
  | nil => simp
  | cons a x ih =>
    cases y with
    | nil => simp
    | cons b y => simp only [spell_cons, List.cons_prefix_cons, ih, byte_eq_iff, and_assoc]

/-- A spelling lies below the terminator. -/
theorem lt_terminator_of_mem_spell {x : Bytes} {c : Nibble} (hc : c ∈ spell x) : c < 16 :=
  Fin.lt_def.mpr (spell_isNibbles x c hc)

/-- Two hex keys compare as their byte keys, except that a key comes after its proper
prefixes. -/
theorem keybytesToHex_lt_iff (x y : Bytes) :
    keybytesToHex x < keybytesToHex y ↔ (x < y ∧ ¬ x <+: y) ∨ (y <+: x ∧ y ≠ x) := by
  rw [keybytesToHex_eq_spell, keybytesToHex_eq_spell,
    append_top_lt_append_top_iff (fun c hc => lt_terminator_of_mem_spell hc)
      (fun c hc => lt_terminator_of_mem_spell hc),
    branches_iff_lt_not_isPrefix, spell_lt_spell_iff, spell_prefix_spell_iff,
    spell_prefix_spell_iff]
  have hinj : spell y = spell x ↔ y = x :=
    ⟨fun h => by rw [← decodeNibbles_spell y, h, decodeNibbles_spell], fun h => h ▸ rfl⟩
  rw [ne_eq, ne_eq, hinj]

/-- A hex key comes before the spelling of a byte key exactly when its key is smaller
and no prefix of it. -/
theorem keybytesToHex_lt_spell_iff (x y : Bytes) :
    keybytesToHex x < spell y ↔ x < y ∧ ¬ x <+: y := by
  rw [keybytesToHex_eq_spell, append_top_lt_iff fun c hc => lt_terminator_of_mem_spell hc,
    branches_iff_lt_not_isPrefix, spell_lt_spell_iff, spell_prefix_spell_iff]

/-- The spelling of a byte key is a prefix of a hex key exactly when the byte key is a
prefix of its key. -/
theorem spell_prefix_keybytesToHex_iff (x y : Bytes) : spell x <+: keybytesToHex y ↔ x <+: y := by
  rw [keybytesToHex_eq_spell, List.prefix_concat_iff, spell_prefix_spell_iff]
  constructor
  · rintro (heq | h)
    · -- a spelling holds no terminator
      have h16 : (16 : Nibble) ∈ spell x := by
        rw [heq]
        exact List.mem_append_right _ (List.mem_singleton_self _)
      exact absurd (lt_terminator_of_mem_spell h16) (lt_irrefl _)
    · exact h
  · exact .inr

/-- What {lit}`Trie.NodeIterator` keeps of a stored key: the key is not before the start
key, or is a prefix of it. -/
theorem not_lt_start_iff (pre k start : Bytes) :
    ¬ keybytesToHex (pre ++ k) < (keybytesToHex (pre ++ start)).dropLast ↔
      ¬ k < start ∨ k <+: start := by
  rw [keybytesToHex_eq_spell (pre ++ start), List.dropLast_concat, keybytesToHex_lt_spell_iff,
    append_lt_append_iff, List.prefix_append_right_inj, not_and_or, not_not]

/-- What {lit}`Trie.PrefixIterator` keeps of a stored key: the key has the prefix. -/
theorem prefix_start_iff (pre k pfx : Bytes) :
    (keybytesToHex (pre ++ pfx)).dropLast <+: keybytesToHex (pre ++ k) ↔ pfx <+: k := by
  rw [keybytesToHex_eq_spell (pre ++ pfx), List.dropLast_concat, spell_prefix_keybytesToHex_iff,
    List.prefix_append_right_inj]

/-! ## Iterating a trie -/

/-- What a loop over an iterator of a trie with key prefix {lit}`pre` that holds
{lit}`M` returns for the keys {lit}`P` picks: every entry of such a key, under its full
key, each once, in increasing order of hex keys, and nothing else. -/
structure Enumerates (pre : Bytes) (M : Bytes → Option Bytes) (P : Bytes → Prop)
    (out : List (Bytes × Bytes)) : Prop where
  mem : ∀ k v, (pre ++ k, v) ∈ out ↔ M k = some v ∧ P k
  full : ∀ e ∈ out, ∃ k, e.1 = pre ++ k
  sorted : (out.map fun e => keybytesToHex e.1).Pairwise (· < ·)

/-- The values a walk meets, kept by a test on their paths and reported as entries,
enumerate the entries whose keys pass the test, when the walk meets in order the values
of a map that holds {lit}`M` under the prefixed keys. -/
theorem enumerates_of_walk {pre : Bytes} {m : Content} {M : Bytes → Option Bytes}
    (hM : Abstracts pre m M) {E : List (List Nibble × Bytes)}
    (hmem : ∀ q v, (q, v) ∈ E ↔ m q = some v) (hsorted : E.Pairwise fun a b => Branches a.1 b.1)
    (test : List Nibble → Bool) {P : Bytes → Prop}
    (hP : ∀ k, test (keybytesToHex (pre ++ k)) = true ↔ P k) :
    Enumerates pre M P ((E.filter fun e => test e.1).map entryOf) := by
  -- every value the walk meets is at the hex key of a prefixed key
  have hkey : ∀ e ∈ E, ∃ k, e.1 = keybytesToHex (pre ++ k) := fun e he =>
    hM.support e.1 (by rw [(hmem e.1 e.2).mp he]; simp)
  have hentry : ∀ k v, entryOf (keybytesToHex (pre ++ k), v) = (pre ++ k, v) := fun k v => by
    simp [entryOf, hexToKeybytes_keybytesToHex]
  have hback : ∀ e ∈ E, keybytesToHex (entryOf e).1 = e.1 := fun e he => by
    obtain ⟨k, hk⟩ := hkey e he
    rw [show e = (keybytesToHex (pre ++ k), e.2) from Prod.ext hk rfl, hentry]
  refine ⟨fun k v => ⟨?_, ?_⟩, fun e he => ?_, ?_⟩
  · intro h
    obtain ⟨⟨q, w⟩, he, heq⟩ := List.mem_map.mp h
    obtain ⟨he, htest⟩ := List.mem_filter.mp he
    obtain ⟨k', rfl⟩ := hkey _ he
    rw [hentry, Prod.mk.injEq, List.append_cancel_left_eq] at heq
    obtain ⟨rfl, rfl⟩ := heq
    exact ⟨(hM.holds k').symm.trans ((hmem _ _).mp he), (hP k').mp htest⟩
  · rintro ⟨hMk, hPk⟩
    refine List.mem_map.mpr ⟨(keybytesToHex (pre ++ k), v), List.mem_filter.mpr ⟨?_, ?_⟩, hentry k v⟩
    · exact (hmem _ _).mpr ((hM.holds k).trans hMk)
    · exact (hP k).mpr hPk
  · obtain ⟨e', he', rfl⟩ := List.mem_map.mp he
    obtain ⟨k, hk⟩ := hkey e' (List.mem_of_mem_filter he')
    exact ⟨k, by rw [show e' = (keybytesToHex (pre ++ k), e'.2) from Prod.ext hk rfl, hentry]⟩
  · rw [List.map_map, List.pairwise_map]
    refine (hsorted.filter _).imp_of_mem fun {a b} ha hb hab => ?_
    rw [Function.comp_apply, Function.comp_apply, hback a (List.mem_of_mem_filter ha),
      hback b (List.mem_of_mem_filter hb)]
    exact hab.lt

section Iterate

variable {sha : Bytes → Uranus.Hash} {B : Set Bytes}

/-- {lit}`Hash` of a valid trie returns the empty root or the hash of a blob of
{lit}`B`. -/
theorem Trie.Valid.hash_root (hinj : Set.InjOn sha B) {t : Trie} {m : Content}
    (hv : t.Valid sha B m) (hb : t.root.BlobsIn sha B) :
    ∃ r t', t.Hash sha = some (r, t') ∧ (r = emptyRoot ∨ ∃ e ∈ B, sha e = r) := by
  obtain ⟨r, cached, db', heq, -, -, -, -, -, hroot⟩ := hashRoot_result hinj t hv.rep
    hv.terminal hv.cachesOk hb (fun d (hd : none = some d) => by cases hd)
    (fun cb (h : (none : Option LeafCallback) = some cb) => by cases h)
  refine ⟨r, { t with root := cached }, by simp only [Trie.Hash, heq], ?_⟩
  rcases hroot with ⟨-, hr⟩ | ⟨-, e, he, hr⟩
  · exact .inl hr
  · exact .inr ⟨e, he, hr⟩

/-- {lit}`Hash` keeps the walk of the root: it only caches hashes in the flags. -/
theorem Trie.Hash_walks {t t' : Trie} {r : Uranus.Hash} (hh : t.Hash sha = some (r, t'))
    {E : List (List Nibble × Bytes)} {K : Nat} (hw : Walks t.db t.cachegen [] t.root E K) :
    Walks t'.db t'.cachegen [] t'.root E K := by
  unfold Trie.Hash at hh
  split at hh
  · next root cached d heq =>
    simp only [Option.some.injEq, Prod.mk.injEq] at hh
    obtain ⟨rfl, rfl⟩ := hh
    unfold Trie.hashRoot at heq
    split at heq
    · next hnil =>
      simp only [Option.some.injEq, Prod.mk.injEq] at heq
      obtain ⟨-, rfl, -⟩ := heq
      rw [hnil] at hw
      exact hw
    · exact Hasher.hash_walks _ hw heq
  · cases hh

/-- The walk of the root of a valid trie that holds {lit}`M` and whose hash nodes are
in its database: it meets exactly the values of the trie's map, under their paths. -/
theorem Trie.Valid.walks {t : Trie} {m : Content} {M : Bytes → Option Bytes}
    (hv : t.Valid sha B m) (hM : Abstracts t.keyPrefix m M) (hload : Loaded t.db t.cachegen t.root) :
    ∃ E K, Walks t.db t.cachegen [] t.root E K ∧ ∀ q v, (q, v) ∈ E ↔ m q = some v := by
  obtain ⟨E, K, hw, hmem⟩ := hv.rep.walks hv.agrees (p := []) hload (.inl ⟨rfl, hv.terminal⟩) (.inr rfl)
    (fun q hq => by
      obtain ⟨k, rfl⟩ := hM.support q hq
      simp [hexToKeybytes_keybytesToHex])
  exact ⟨E, K, hw, fun q v => by simp [hmem]⟩

variable (hinj : Set.InjOn sha B) (hempty : ∀ e ∈ B, sha e ≠ emptyState sha)
  (hroot : emptyRoot ≠ emptyState sha)
include hinj hempty hroot

/-- The iterator over {lit}`Trie.NodeIterator start`, on a valid trie whose hash nodes
are in its database, returns with enough fuel every entry of the trie's map whose key
is not before the start key or is a prefix of it, under its full key, once each, in
increasing order of hex keys, and ends with no error. -/
theorem NodeIterator_enumerates {t : Trie} {m : Content} {M : Bytes → Option Bytes}
    (hv : t.Valid sha B m) (hb : t.root.BlobsIn sha B) (hM : Abstracts t.keyPrefix m M)
    (hload : Loaded t.db t.cachegen t.root) (start : Bytes) :
    ∃ F, ∀ fuel n, F ≤ fuel → F ≤ n → ∃ it out last, t.NodeIterator sha start fuel = some it ∧
      Iterator.collect sha fuel n (NewIterator it) = some (out, last) ∧ last.Err = none ∧
      Enumerates t.keyPrefix M (fun k => ¬ k < start ∨ k <+: start) out := by
  obtain ⟨r, t', hh, hr⟩ := hv.hash_root hinj hb
  -- the root is not the hash of the empty blob, so the iterator walks it
  have hne : r ≠ emptyState sha := by
    rcases hr with rfl | ⟨e, he, rfl⟩
    · exact hroot
    · exact hempty e he
  obtain ⟨E, K, hw, hmem⟩ := hv.walks hM hload
  refine ⟨K + E.length + 1, fun fuel n hfuel hn => ?_⟩
  obtain ⟨it, last, hit, hcollect, hlast⟩ := NodeIterator_collect hh (Trie.Hash_again hh) hne
    (Trie.Hash_walks hh hw) start (show K < fuel by omega) (show E.length < n by omega)
  refine ⟨it, _, last, hit, hcollect, hlast, ?_⟩
  refine enumerates_of_walk hM hmem hw.sorted
    (fun q => decide (¬ q < (keybytesToHex (t.keyPrefix ++ start)).dropLast)) fun k => ?_
  rw [decide_eq_true_iff]
  exact not_lt_start_iff _ _ _

/-- The iterator over {lit}`Trie.PrefixIterator pfx`, on a valid trie whose hash nodes
are in its database, returns with enough fuel every entry of the trie's map whose key
has the prefix, under its full key, once each, in increasing order of hex keys, and
ends with no error. -/
theorem PrefixIterator_enumerates {t : Trie} {m : Content} {M : Bytes → Option Bytes}
    (hv : t.Valid sha B m) (hb : t.root.BlobsIn sha B) (hM : Abstracts t.keyPrefix m M)
    (hload : Loaded t.db t.cachegen t.root) (pfx : Bytes) :
    ∃ F, ∀ fuel n, F ≤ fuel → F ≤ n → ∃ it out last, t.PrefixIterator sha pfx fuel = some it ∧
      Iterator.collect sha fuel n (NewIterator it) = some (out, last) ∧ last.Err = none ∧
      Enumerates t.keyPrefix M (fun k => pfx <+: k) out := by
  obtain ⟨r, t', hh, hr⟩ := hv.hash_root hinj hb
  have hne : r ≠ emptyState sha := by
    rcases hr with rfl | ⟨e, he, rfl⟩
    · exact hroot
    · exact hempty e he
  obtain ⟨E, K, hw, hmem⟩ := hv.walks hM hload
  refine ⟨K + E.length + 1, fun fuel n hfuel hn => ?_⟩
  obtain ⟨it, last, hit, hcollect, hlast⟩ := PrefixIterator_collect hh (Trie.Hash_again hh) hne
    (Trie.Hash_walks hh hw) pfx (show K < fuel by omega) (show E.length < n by omega)
  refine ⟨it, _, last, hit, hcollect, hlast, ?_⟩
  refine enumerates_of_walk hM hmem hw.sorted
    (fun q => decide ((keybytesToHex (t.keyPrefix ++ pfx)).dropLast <+: q)) fun k => ?_
  rw [decide_eq_true_iff]
  exact prefix_start_iff _ _ _

end Iterate

/-! ## The iterators of a trie of a run -/

/-- The iterators of {lit}`t` enumerate {lit}`M`, each given enough fuel and ending with no
error: for every prefix, the iterator over {lit}`Trie.PrefixIterator` returns the entries
whose keys have the prefix, and for every start key, the iterator over
{lit}`Trie.NodeIterator` returns the entries whose keys are not before it or are
prefixes of it. -/
def Trie.IteratorsEnumerate (sha : Bytes → Uranus.Hash) (t : Trie) (M : Bytes → Option Bytes) :
    Prop :=
  (∀ pfx, ∃ F, ∀ fuel n, F ≤ fuel → F ≤ n → ∃ it out last, t.PrefixIterator sha pfx fuel = some it ∧
      Iterator.collect sha fuel n (NewIterator it) = some (out, last) ∧ last.Err = none ∧
      Enumerates t.keyPrefix M (fun k => pfx <+: k) out) ∧
  (∀ start, ∃ F, ∀ fuel n, F ≤ fuel → F ≤ n → ∃ it out last,
      t.NodeIterator sha start fuel = some it ∧
      Iterator.collect sha fuel n (NewIterator it) = some (out, last) ∧ last.Err = none ∧
      Enumerates t.keyPrefix M (fun k => ¬ k < start ∨ k <+: start) out)

section Run

variable {sha : Bytes → Uranus.Hash} {B : Set Bytes}

/-- The iterators of a trie of a run that holds {lit}`M`, whose hash nodes are all in
its database, enumerate {lit}`M` in the order of hex keys. -/
theorem iterators_enumerate (hinj : Set.InjOn sha B) (hempty : ∀ e ∈ B, sha e ≠ emptyState sha)
    (hroot : emptyRoot ≠ emptyState sha) {t : Trie} {M : Bytes → Option Bytes}
    (hinv : RunInv sha B t M) (hb : t.root.BlobsIn sha B) (hload : Loaded t.db t.cachegen t.root) :
    t.IteratorsEnumerate sha M := by
  obtain ⟨m, hv, hM⟩ := hinv
  exact ⟨PrefixIterator_enumerates hinj hempty hroot hv hb hM hload,
    NodeIterator_enumerates hinj hempty hroot hv hb hM hload⟩

end Run

/-- The trie of two updates, of the keys {lit}`a` and {lit}`ab`, from an empty trie,
with a hash that pads a blob to 32 bytes: its iterators enumerate its map. -/
theorem iterators_enumerate_two_keys :
    let sha : Bytes → Uranus.Hash := fun e => ⟨(e ++ List.replicate 32 0).take 32, by simp⟩
    let t₀ : Trie := ⟨Database.NewDatabase (fun _ => none), .nil, emptyRoot, [], 0, 0⟩
    let ops : List Op := [.update [0x61] [1], .update [0x61, 0x62] [2]]
    ∃ t, exec sha ops t₀ = .ok t ∧ t.IteratorsEnumerate sha (abstractRun ops fun _ => none) := by
  intro sha t₀ ops
  let f : NodeFlag := ⟨none, 0, true⟩
  let leaf : Node := .short [2, 16] (.value [2]) f
  let cs : Fin 17 → Node := setChild (setChild emptyChildren 16 (.value [1])) 6 leaf
  let root₁ : Node := .short [6, 1, 16] (.value [1]) f
  let root₂ : Node := .short [6, 1] (.full cs f) f
  let B : Set Bytes := {root₁.blob sha, root₂.blob sha, (Node.full cs f).blob sha, leaf.blob sha}
  have hupd₁ : Op.apply sha (.update [0x61] [1]) t₀ = .ok { t₀ with root := root₁ } := rfl
  have hupd₂ : Op.apply sha (.update [0x61, 0x62] [2]) { t₀ with root := root₁ } =
      .ok { t₀ with root := root₂ } := rfl
  have hrun : exec sha ops t₀ = .ok { t₀ with root := root₂ } := rfl
  -- the children of the full node: the leaf under 6, the value under 16, nil elsewhere
  have hcs : ∀ i, cs i = .nil ∨ cs i = .value [1] ∨ cs i = leaf := by
    intro i
    by_cases h6 : i = 6
    · exact .inr (.inr (by rw [h6]; rfl))
    · by_cases h16 : i = 16
      · exact .inr (.inl (by rw [h16]; rfl))
      · exact .inl (by simp [cs, setChild, Function.update_of_ne h6, Function.update_of_ne h16,
          emptyChildren])
  have hmem : ∀ e ∈ B, e = root₁.blob sha ∨ e = root₂.blob sha ∨ e = (Node.full cs f).blob sha ∨
      e = leaf.blob sha := fun e he => by simpa [B] using he
  have hinj : Set.InjOn sha B := by
    intro a ha b hb hab
    rcases hmem a ha with h | h | h | h <;> rcases hmem b hb with h' | h' | h' | h' <;>
      rw [h, h'] at hab ⊢ <;> exact absurd hab (by decide +kernel)
  have hres : ∀ e ∈ B, sha e ≠ Uranus.Hash.zero ∧ sha e ≠ emptyRoot := by
    intro e he
    rcases hmem e he with h | h | h | h <;> rw [h] <;> exact ⟨by decide +kernel, by decide +kernel⟩
  have hempty : ∀ e ∈ B, sha e ≠ emptyState sha := by
    intro e he
    rcases hmem e he with h | h | h | h <;> rw [h] <;> decide +kernel
  have hblobs₂ : root₂.BlobsIn sha B := by
    refine ⟨⟨Set.mem_insert_of_mem _ (Set.mem_insert _ _), by decide +kernel⟩,
      ⟨Set.mem_insert_of_mem _ (Set.mem_insert_of_mem _ (Set.mem_insert _ _)), by decide +kernel⟩,
      fun i => ?_⟩
    rcases hcs i with h | h | h <;> rw [h]
    · trivial
    · trivial
    · exact ⟨⟨Set.mem_insert_of_mem _ (Set.mem_insert_of_mem _ (Set.mem_insert_of_mem _
        (Set.mem_singleton _))), by decide +kernel⟩, trivial⟩
  have hwithin : RunWithin sha B t₀ ops := by
    refine ⟨trivial, trivial, fun t₁ h₁ => ?_⟩
    rw [hupd₁] at h₁
    cases h₁
    refine ⟨⟨⟨Set.mem_insert _ _, by decide +kernel⟩, trivial⟩, trivial, fun t₂ h₂ => ?_⟩
    rw [hupd₂] at h₂
    cases h₂
    exact hblobs₂
  have hdb : ContentAddressed sha B t₀.db := by
    intro h e hn hne
    by_cases hz : h = Hash.zero
    · subst hz
      simp [t₀, Database.NewDatabase, Database.Node, Database.cached] at hn
      exact absurd hn hne
    · simp [t₀, Database.NewDatabase, Database.Node, Database.cached, hz] at hn
  obtain ⟨-, hinv⟩ := exec_ok_inv hinj hres (runInv_empty hinj rfl hdb) hwithin hrun
  have hload : Loaded t₀.db 0 root₂ := by
    refine .short (.full fun i => ?_)
    rcases hcs i with h | h | h <;> rw [h]
    · exact .nil
    · exact .value _
    · exact .short (.value _)
  exact ⟨_, hrun, iterators_enumerate hinj hempty (by decide) hinv hblobs₂ hload⟩

/-- On the same trie the iteration is not in byte order: the key {lit}`ab` comes before
its prefix {lit}`a`, and the iterator from the start key {lit}`ab` returns {lit}`a`. -/
theorem iteration_not_in_byte_order :
    let sha : Bytes → Uranus.Hash := fun e => ⟨(e ++ List.replicate 32 0).take 32, by simp⟩
    let run := exec sha [.update [0x61] [1], .update [0x61, 0x62] [2]]
      ⟨Database.NewDatabase (fun _ => none), .nil, emptyRoot, [], 0, 0⟩
    (run.toOption.bind fun t => (t.PrefixIterator sha [] 100).bind fun it =>
        (Iterator.collect sha 100 10 (NewIterator it)).map Prod.fst) =
      some [([0x61, 0x62], [2]), ([0x61], [1])] ∧
    (run.toOption.bind fun t => (t.NodeIterator sha [0x61, 0x62] 100).bind fun it =>
        (Iterator.collect sha 100 10 (NewIterator it)).map Prod.fst) =
      some [([0x61, 0x62], [2]), ([0x61], [1])] ∧
    ([0x61] : Bytes) < [0x61, 0x62] := by
  decide +kernel

end Mtp
end Uranus
