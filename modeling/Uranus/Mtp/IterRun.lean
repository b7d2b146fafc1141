import Uranus.Mtp.IterWalk

/-!
# The key-value iterator over a trie

{lit}`Iterator.Next` calls the node iterator's {lit}`Next` until it reaches a node at
a path with the terminator, and reports its key and value.  Over the walk of the
pending subtrees this returns the first value the walk meets
({lit}`Iterator.Next_walk`); over a prefix iterator, the first value when it is under
the prefix, and else the end ({lit}`Iterator.Next_pfx_walk`).  Calling it until it
returns false, as the callers' loops do ({lit}`Iterator.collect`), gives every value
the walk meets from the seek position, and over a prefix iterator those under the
prefix.

Main results:

- Theorem {lit}`NodeIterator_collect`: the iterator over {lit}`Trie.NodeIterator`
  returns the values the walk of the root meets at paths not before the start key,
  in the order of the walk, and ends with no error.
- Theorem {lit}`PrefixIterator_collect`: the iterator over {lit}`Trie.PrefixIterator`
  returns the values the walk of the root meets under the prefix.
-/

namespace Uranus
namespace Mtp

open Lib

/-! ## The key-value iterator over a node iterator -/

section KeyValue

variable {sha : Bytes → Uranus.Hash}

/-- {lit}`Iterator.Next` after a node at a path with the terminator: the value there,
with its key. -/
theorem Iterator.Next_node_leaf {nit nit' : nodeIterator} {fuel : Nat}
    (h : nit.Next sha true fuel = some (true, nit')) (hleaf : nit'.Leaf = true) {k v : Bytes}
    (hk : nit'.LeafKey = some k) (hv : nit'.LeafBlob = some v) (key value : Bytes)
    (err : Option TrieError) :
    Iterator.Next sha (fuel + 1) ⟨.node nit, key, value, err⟩ =
      some (true, ⟨.node nit', k, v, err⟩) := by
  simp only [Iterator.Next, NodeIterator.Next, h, Option.map_some, Option.bind_eq_bind,
    Option.bind_some, NodeIterator.Leaf, hleaf, NodeIterator.LeafKey, hk, NodeIterator.LeafBlob, hv,
    if_true]
  rfl

/-- {lit}`Iterator.Next` after a node at a path without the terminator goes on. -/
theorem Iterator.Next_node_inner {nit nit' : nodeIterator} {fuel : Nat}
    (h : nit.Next sha true fuel = some (true, nit')) (hleaf : nit'.Leaf = false) (key value : Bytes)
    (err : Option TrieError) :
    Iterator.Next sha (fuel + 1) ⟨.node nit, key, value, err⟩ =
      Iterator.Next sha fuel ⟨.node nit', key, value, err⟩ := by
  simp only [Iterator.Next, NodeIterator.Next, h, Option.map_some, Option.bind_eq_bind,
    Option.bind_some, NodeIterator.Leaf, hleaf, if_true]
  rfl

/-- {lit}`Iterator.Next` when the node iterator stops: nil key and value, and its
error. -/
theorem Iterator.Next_node_stop {nit nit' : nodeIterator} {fuel : Nat}
    (h : nit.Next sha true fuel = some (false, nit')) (key value : Bytes) (err : Option TrieError) :
    Iterator.Next sha (fuel + 1) ⟨.node nit, key, value, err⟩ =
      some (false, ⟨.node nit', [], [], nit'.Error⟩) := by
  simp only [Iterator.Next, NodeIterator.Next, h, Option.map_some, Option.bind_eq_bind,
    Option.bind_some, NodeIterator.Error]
  rfl

/-- What {lit}`Iterator.Next` on a node iterator returns when the walk meets the
values {lit}`E` from here, at {lit}`K` nodes: the first value with its key, and a
node iterator from which the walk meets the rest at fewer nodes; or, when there is
none, the end with no error. -/
def NextSpec (tr : Trie) (E : List (List Nibble × Bytes)) (K : Nat) (err : Option TrieError) :
    Option (Bool × Iterator) → Prop
  | some (true, it) => ∃ q v E' nit K', E = (q, v) :: E' ∧
      it = ⟨.node nit, (hexToKeybytes q).getD [], v, err⟩ ∧ nit.Good sha tr ∧ nit.err = none ∧
      PendWalks tr.db tr.cachegen (nit.pending true) E' K' ∧ K' < K
  | some (false, it) => E = [] ∧ it.Key = [] ∧ it.Value = [] ∧ it.Err = none ∧
      ∃ nit, it.nodeIt = .node nit ∧ nit.err = some .iteratorEnd
  | none => False

/-- A bound on the nodes left can only grow. -/
theorem NextSpec.mono {tr : Trie} {E : List (List Nibble × Bytes)} {K J : Nat}
    {err : Option TrieError} {r : Option (Bool × Iterator)} (h : @NextSpec sha tr E K err r)
    (hKJ : K ≤ J) : @NextSpec sha tr E J err r := by
  match r, h with
  | some (true, _), ⟨q, v, E', nit, K', hE, hit, hgood, herr, hw, hK⟩ =>
    exact ⟨q, v, E', nit, K', hE, hit, hgood, herr, hw, by omega⟩
  | some (false, _), h => exact h

/-- {lit}`Iterator.Next` on a node iterator returns the first value the walk meets
from its pending subtrees, or the end of the walk, given more fuel than the nodes it
meets.  The proof follows the loop: each round visits one node, which a value ends,
and any other node replaces by its children. -/
theorem Iterator.Next_walk {tr : Trie} :
    ∀ (fuel : Nat) {nit : nodeIterator} {E : List (List Nibble × Bytes)} {K : Nat}
      (key value : Bytes) (err : Option TrieError), nit.Good sha tr → nit.err = none →
      PendWalks tr.db tr.cachegen (nit.pending true) E K → K < fuel →
      @NextSpec sha tr E K err (Iterator.Next sha fuel ⟨.node nit, key, value, err⟩)
  | 0, _, _, _, _, _, _, _, _, _, hK => absurd hK (Nat.not_lt_zero _)
  | fuel + 1, nit, E, K, key, value, err, hgood, herr, hw, hK => by
    cases hpend : nit.pending true with
    | nil =>
      -- nothing is pending: the walk has ended
      rw [hpend] at hw
      cases hw
      have hstart : nit.stack ≠ [] := by
        intro hst
        simp [nodeIterator.pending, hst, hgood.trie] at hpend
      obtain ⟨nit', hnext, herr', -⟩ := nodeIterator.Next_end hgood.trie herr hstart hpend fuel
      rw [Iterator.Next_node_stop hnext]
      exact ⟨rfl, rfl, rfl, by simp [nodeIterator.Error, herr'], nit', rfl, herr'⟩
    | cons item P =>
      obtain ⟨p, x⟩ := item
      rw [hpend] at hw
      cases hw with
      | @cons _ _ L k _ E' K' hwalk hrest =>
      obtain ⟨y, k', hres, hy, hwy, hk'⟩ := hwalk.resolve
      obtain ⟨nit', hnext, hgood', herr', hpath, ⟨st, rest, hstk, hnode⟩, hpend'⟩ :=
        nodeIterator.Next_visit hgood herr hpend hres fuel
      rcases hwy.expand hy with ⟨v, rfl, rfl, hterm, hkey⟩ | ⟨hterm, -, k'', hk'', hwc⟩
      · -- a value: its key and the value are returned
        have hleaf : nit'.Leaf = true := by rw [nodeIterator.Leaf, hpath, hterm]
        have hkey' : nit'.LeafKey = some ((hexToKeybytes p).getD []) := by
          rw [nodeIterator.LeafKey, hstk]
          obtain ⟨kb, hkb⟩ := Option.isSome_iff_exists.mp hkey
          simp [hnode, hpath, hkb]
        have hblob : nit'.LeafBlob = some v := by
          rw [nodeIterator.LeafBlob, hstk]
          simp only [hnode]
        rw [Iterator.Next_node_leaf hnext hleaf hkey' hblob]
        refine ⟨p, v, E', nit', K', rfl, rfl, hgood', herr', ?_, by have := hwalk.pos; omega⟩
        rw [hpend' true]
        simpa [childrenOf, restOf] using hrest
      · -- any other node: the loop goes on, with its children in its place
        have hleaf : nit'.Leaf = false := by rw [nodeIterator.Leaf, hpath, hterm]
        rw [Iterator.Next_node_inner hnext hleaf]
        have hw' : PendWalks tr.db tr.cachegen (nit'.pending true) (L ++ E') (k'' + K') := by
          rw [hpend' true, if_pos rfl]
          exact hwc.append hrest
        exact (Iterator.Next_walk fuel key value err hgood' herr' hw' (by omega)).mono (by omega)

/-- {lit}`Iterator.Next` on a node iterator that has reached the end reports it
again, with no error. -/
theorem Iterator.Next_node_ended {nit : nodeIterator} (herr : nit.err = some .iteratorEnd)
    (fuel : Nat) (key value : Bytes) (err : Option TrieError) :
    Iterator.Next sha (fuel + 1) ⟨.node nit, key, value, err⟩ =
      some (false, ⟨.node nit, [], [], none⟩) := by
  rw [Iterator.Next_node_stop (nodeIterator.Next_ended sha herr true fuel)]
  simp [nodeIterator.Error, herr]

/-! ## Over a prefix iterator -/

/-- {lit}`Iterator.Next` over a prefix iterator after a node under the prefix at a path
with the terminator: the value there, with its key. -/
theorem Iterator.Next_pfx_leaf {pfx : List Nibble} {nit nit' : nodeIterator} {fuel : Nat}
    (h : nit.Next sha true fuel = some (true, nit')) (hpre : pfx.isPrefixOf nit'.path = true)
    (hleaf : nit'.Leaf = true) {k v : Bytes} (hk : nit'.LeafKey = some k)
    (hv : nit'.LeafBlob = some v) (key value : Bytes) (err : Option TrieError) :
    Iterator.Next sha (fuel + 1) ⟨.pfx ⟨pfx, some nit⟩, key, value, err⟩ =
      some (true, ⟨.pfx ⟨pfx, some nit'⟩, k, v, err⟩) := by
  simp only [Iterator.Next, NodeIterator.Next, prefixIterator.Next, Option.pure_def,
    Option.bind_eq_bind, Option.bind_some, h, hpre, Bool.and_self, Option.map_some,
    NodeIterator.Leaf, prefixIterator.Leaf, NodeIterator.LeafKey, prefixIterator.LeafKey,
    NodeIterator.LeafBlob, prefixIterator.LeafBlob, if_true, hleaf, hk, hv]

/-- {lit}`Iterator.Next` over a prefix iterator after a node under the prefix at a path
without the terminator goes on. -/
theorem Iterator.Next_pfx_inner {pfx : List Nibble} {nit nit' : nodeIterator} {fuel : Nat}
    (h : nit.Next sha true fuel = some (true, nit')) (hpre : pfx.isPrefixOf nit'.path = true)
    (hleaf : nit'.Leaf = false) (key value : Bytes) (err : Option TrieError) :
    Iterator.Next sha (fuel + 1) ⟨.pfx ⟨pfx, some nit⟩, key, value, err⟩ =
      Iterator.Next sha fuel ⟨.pfx ⟨pfx, some nit'⟩, key, value, err⟩ := by
  simp only [Iterator.Next, NodeIterator.Next, prefixIterator.Next, Option.pure_def,
    Option.bind_eq_bind, Option.bind_some, h, hpre, Bool.and_self, Option.map_some,
    NodeIterator.Leaf, prefixIterator.Leaf, if_true, hleaf, Bool.and_false, Bool.false_eq_true,
    if_false]

/-- {lit}`Iterator.Next` over a prefix iterator when the node iterator stops or leaves
the prefix: nil key and value, and the node iterator's error. -/
theorem Iterator.Next_pfx_stop {pfx : List Nibble} {nit nit' : nodeIterator} {fuel : Nat}
    {ok : Bool} (h : nit.Next sha true fuel = some (ok, nit'))
    (hstop : (ok && pfx.isPrefixOf nit'.path) = false) (key value : Bytes)
    (err : Option TrieError) :
    Iterator.Next sha (fuel + 1) ⟨.pfx ⟨pfx, some nit⟩, key, value, err⟩ =
      some (false, ⟨.pfx ⟨pfx, some nit'⟩, [], [], nit'.Error⟩) := by
  simp only [Iterator.Next, NodeIterator.Next, prefixIterator.Next, Option.pure_def,
    Option.bind_eq_bind, Option.bind_some, h, hstop, Option.map_some, NodeIterator.Error,
    prefixIterator.Error, Bool.false_eq_true, if_false]

/-- What {lit}`Iterator.Next` over a prefix iterator returns when the walk meets the
values {lit}`E` from here, at {lit}`K` nodes: the first of them when it is under the
prefix, and a node iterator from which the walk meets the rest, in order and not
before the prefix; or the end with no error, and none of the values is under the
prefix. -/
def PfxSpec (tr : Trie) (pfx : List Nibble) (E : List (List Nibble × Bytes)) (K : Nat)
    (err : Option TrieError) : Option (Bool × Iterator) → Prop
  | some (true, it) => ∃ q v E' nit K', E = (q, v) :: E' ∧ pfx <+: q ∧
      it = ⟨.pfx ⟨pfx, some nit⟩, (hexToKeybytes q).getD [], v, err⟩ ∧ nit.Good sha tr ∧
      nit.err = none ∧ Ordered (nit.pending true) ∧ (∀ c ∈ nit.pending true, ¬ c.1 < pfx) ∧
      PendWalks tr.db tr.cachegen (nit.pending true) E' K' ∧ K' < K
  | some (false, it) => (∀ e ∈ E, ¬ pfx <+: e.1) ∧ it.Key = [] ∧ it.Value = [] ∧ it.Err = none
  | none => False

/-- A bound on the nodes left can only grow. -/
theorem PfxSpec.mono {tr : Trie} {pfx : List Nibble} {E : List (List Nibble × Bytes)} {K J : Nat}
    {err : Option TrieError} {r : Option (Bool × Iterator)}
    (h : @PfxSpec sha tr pfx E K err r) (hKJ : K ≤ J) :
    @PfxSpec sha tr pfx E J err r := by
  match r, h with
  | some (true, _), ⟨q, v, E', nit, K', hE, hq, hit, hgood, herr, hord, habove, hw, hK⟩ =>
    exact ⟨q, v, E', nit, K', hE, hq, hit, hgood, herr, hord, habove, hw, by omega⟩
  | some (false, _), h => exact h

/-- When the walk reaches a node that is not before the prefix and not under it, no
value it meets from there is under the prefix: the node branches off above the
prefix, and so does everything after it. -/
theorem not_prefix_of_branches {pfx p : List Nibble} {x : Node} {P : List (List Nibble × Node)}
    {E : List (List Nibble × Bytes)} {K : Nat} {db : Database} {g : UInt16}
    (hord : Ordered ((p, x) :: P)) (hw : PendWalks db g ((p, x) :: P) E K) (hlt : ¬ p < pfx)
    (hpre : ¬ pfx <+: p) : ∀ e ∈ E, ¬ pfx <+: e.1 := by
  have hbr : Branches pfx p := branches_of_not_lt_of_not_isPrefix hlt hpre
  intro e he
  obtain ⟨c, hc, r, hr⟩ := hw.isPrefix_of_mem e he
  rw [← hr]
  rcases List.mem_cons.mp hc with rfl | hc
  · exact (hbr.append_right r).not_isPrefix
  · exact ((hbr.trans ((List.pairwise_cons.mp hord).1 c hc)).append_right r).not_isPrefix

/-- {lit}`Iterator.Next` over a prefix iterator returns the first value the walk meets
when it is under the prefix, and otherwise the end.  The walk's pending subtrees are
in order and none is before the prefix, so the first node outside the prefix comes
after every value under it. -/
theorem Iterator.Next_pfx_walk {tr : Trie} {pfx : List Nibble} :
    ∀ (fuel : Nat) {nit : nodeIterator} {E : List (List Nibble × Bytes)} {K : Nat}
      (key value : Bytes) (err : Option TrieError), nit.Good sha tr → nit.err = none →
      Ordered (nit.pending true) → (∀ c ∈ nit.pending true, ¬ c.1 < pfx) →
      PendWalks tr.db tr.cachegen (nit.pending true) E K → K < fuel →
      @PfxSpec sha tr pfx E K err
        (Iterator.Next sha fuel ⟨.pfx ⟨pfx, some nit⟩, key, value, err⟩)
  | 0, _, _, _, _, _, _, _, _, _, _, _, hK => absurd hK (Nat.not_lt_zero _)
  | fuel + 1, nit, E, K, key, value, err, hgood, herr, hord, habove, hw, hK => by
    cases hpend : nit.pending true with
    | nil =>
      rw [hpend] at hw
      cases hw
      have hstart : nit.stack ≠ [] := by
        intro hst
        simp [nodeIterator.pending, hst, hgood.trie] at hpend
      obtain ⟨nit', hnext, herr', -⟩ := nodeIterator.Next_end hgood.trie herr hstart hpend fuel
      rw [Iterator.Next_pfx_stop hnext (Bool.false_and _)]
      exact ⟨by simp, rfl, rfl, by simp [nodeIterator.Error, herr']⟩
    | cons item P =>
      obtain ⟨p, x⟩ := item
      rw [hpend] at hw hord habove
      have hw₀ := hw
      cases hw with
      | @cons _ _ L k _ E' K' hwalk hrest =>
      obtain ⟨y, k', hres, hy, hwy, hk'⟩ := hwalk.resolve
      obtain ⟨nit', hnext, hgood', herr', hpath, ⟨st, rest, hstk, hnode⟩, hpend'⟩ :=
        nodeIterator.Next_visit hgood herr hpend hres fuel
      by_cases hpre : pfx <+: p
      · have hpre' : pfx.isPrefixOf nit'.path = true := by
          rw [hpath]
          exact List.isPrefixOf_iff_prefix.mpr hpre
        rcases hwy.expand hy with ⟨v, rfl, rfl, hterm, hkey⟩ | ⟨hterm, -, k'', hk'', hwc⟩
        · -- a value under the prefix: its key and the value are returned
          have hleaf : nit'.Leaf = true := by rw [nodeIterator.Leaf, hpath, hterm]
          have hkey' : nit'.LeafKey = some ((hexToKeybytes p).getD []) := by
            rw [nodeIterator.LeafKey, hstk]
            obtain ⟨kb, hkb⟩ := Option.isSome_iff_exists.mp hkey
            simp [hnode, hpath, hkb]
          have hblob : nit'.LeafBlob = some v := by
            rw [nodeIterator.LeafBlob, hstk]
            simp only [hnode]
          rw [Iterator.Next_pfx_leaf hnext hpre' hleaf hkey' hblob]
          have hrest' : nit'.pending true = P := by simpa [childrenOf, restOf] using hpend' true
          refine ⟨p, v, E', nit', K', rfl, hpre, rfl, hgood', herr', hrest' ▸ hord.tail,
            fun c hc => habove c (List.mem_cons_of_mem _ (hrest' ▸ hc)), hrest' ▸ hrest,
            by have := hwalk.pos; omega⟩
        · -- a node under the prefix: the loop goes on, with its children in its place
          have hleaf : nit'.Leaf = false := by rw [nodeIterator.Leaf, hpath, hterm]
          rw [Iterator.Next_pfx_inner hnext hpre' hleaf]
          have hpend'' : nit'.pending true = childrenOf p y ++ P := by
            rw [hpend' true, if_pos rfl]
          have habove' : ∀ c ∈ nit'.pending true, ¬ c.1 < pfx := by
            rw [hpend'']
            intro c hc
            rcases List.mem_append.mp hc with hc | hc
            · obtain ⟨r, hr⟩ := (childrenOf_ordered p y).2 c hc
              rw [hr]
              exact not_lt_append (habove _ List.mem_cons_self) r
            · exact habove c (List.mem_cons_of_mem _ hc)
          have hw' : PendWalks tr.db tr.cachegen (nit'.pending true) (L ++ E') (k'' + K') := by
            rw [hpend'']
            exact hwc.append hrest
          exact (Iterator.Next_pfx_walk fuel key value err hgood' herr' (hpend'' ▸ hord.expand y)
            habove' hw' (by omega)).mono (by omega)
      · -- a node outside the prefix: the iteration ends
        have hstop : (true && pfx.isPrefixOf nit'.path) = false := by
          rw [hpath, Bool.true_and]
          exact Bool.eq_false_iff.mpr fun h => hpre <| List.isPrefixOf_iff_prefix.mp h
        rw [Iterator.Next_pfx_stop hnext hstop]
        exact ⟨not_prefix_of_branches hord hw₀ (habove _ List.mem_cons_self) hpre, rfl, rfl,
          by simp [nodeIterator.Error, herr']⟩

/-! ## Iterating to the end -/

/-- The loop of the callers, {lit}`for it.Next() { ... }`, run at most {lit}`n` times:
the keys and values {lit}`Next` returns until it returns false, and the iterator it
stops with; {lean}`none` when the loop would go on longer or {lit}`Next` panics. -/
def Iterator.collect (sha : Bytes → Uranus.Hash) (fuel : Nat) :
    Nat → Iterator → Option (List (Bytes × Bytes) × Iterator)
  | 0, _ => none
  | n + 1, it => do
    let (ok, it) ← Iterator.Next sha fuel it
    if ok then
      let (rest, last) ← Iterator.collect sha fuel n it
      pure ((it.Key, it.Value) :: rest, last)
    else pure ([], it)

/-- The key and the value the iterator reports for a value the walk meets. -/
def entryOf (e : List Nibble × Bytes) : Bytes × Bytes := ((hexToKeybytes e.1).getD [], e.2)

/-- A round of the loop after {lit}`Next` returned true. -/
theorem Iterator.collect_true {fuel n : Nat} {it it' : Iterator}
    (h : Iterator.Next sha fuel it = some (true, it')) :
    Iterator.collect sha fuel (n + 1) it =
      (Iterator.collect sha fuel n it').map fun r => ((it'.Key, it'.Value) :: r.1, r.2) := by
  simp only [Iterator.collect, h, Option.bind_eq_bind, Option.bind_some, if_true]
  cases Iterator.collect sha fuel n it' <;> rfl

/-- The loop ends when {lit}`Next` returns false. -/
theorem Iterator.collect_false {fuel n : Nat} {it it' : Iterator}
    (h : Iterator.Next sha fuel it = some (false, it')) :
    Iterator.collect sha fuel (n + 1) it = some ([], it') := by
  simp only [Iterator.collect, h, Option.bind_eq_bind, Option.bind_some, Bool.false_eq_true,
    if_false]
  rfl

/-- The loop over a node iterator returns every value the walk meets, in the order of
the walk, and ends with no error. -/
theorem Iterator.collect_node {tr : Trie} {fuel : Nat} :
    ∀ (E : List (List Nibble × Bytes)) (n : Nat) {nit : nodeIterator} {K : Nat}
      (key value : Bytes) (err : Option TrieError), nit.Good sha tr → nit.err = none →
      PendWalks tr.db tr.cachegen (nit.pending true) E K → K < fuel → E.length < n →
      ∃ last, Iterator.collect sha fuel n ⟨.node nit, key, value, err⟩ = some (E.map entryOf, last) ∧
        last.Err = none := by
  intro E
  induction E with
  | nil =>
    intro n nit K key value err hgood herr hw hK hn
    obtain ⟨m, rfl⟩ : ∃ m, n = m + 1 := ⟨n - 1, by simp at hn; omega⟩
    have hspec := Iterator.Next_walk fuel key value err hgood herr hw hK
    rcases hnext : Iterator.Next sha fuel ⟨.node nit, key, value, err⟩ with _ | ⟨_ | _, it'⟩ <;>
      rw [hnext] at hspec
    · exact hspec.elim
    · exact ⟨it', Iterator.collect_false hnext, hspec.2.2.2.1⟩
    · obtain ⟨q, v, E', -, -, hE, -⟩ := hspec
      cases hE
  | cons e E ih =>
    intro n nit K key value err hgood herr hw hK hn
    obtain ⟨m, rfl⟩ : ∃ m, n = m + 1 := ⟨n - 1, by simp at hn; omega⟩
    have hspec := Iterator.Next_walk fuel key value err hgood herr hw hK
    rcases hnext : Iterator.Next sha fuel ⟨.node nit, key, value, err⟩ with _ | ⟨_ | _, it'⟩ <;>
      rw [hnext] at hspec
    · exact hspec.elim
    · cases hspec.1
    · obtain ⟨q, v, E', nit', K', hE, rfl, hgood', herr', hw', hK'⟩ := hspec
      obtain ⟨rfl, rfl⟩ := List.cons.inj hE
      obtain ⟨last, hrest, hlast⟩ := ih m _ _ err hgood' herr' hw' (by omega) (by simpa using hn)
      refine ⟨last, ?_, hlast⟩
      rw [Iterator.collect_true hnext, hrest]
      rfl

/-- The loop over a prefix iterator returns the values the walk meets under the
prefix, in the order of the walk, and ends with no error. -/
theorem Iterator.collect_pfx {tr : Trie} {pfx : List Nibble} {fuel : Nat} :
    ∀ (E : List (List Nibble × Bytes)) (n : Nat) {nit : nodeIterator} {K : Nat}
      (key value : Bytes) (err : Option TrieError), nit.Good sha tr → nit.err = none →
      Ordered (nit.pending true) → (∀ c ∈ nit.pending true, ¬ c.1 < pfx) →
      PendWalks tr.db tr.cachegen (nit.pending true) E K → K < fuel → E.length < n →
      ∃ last, Iterator.collect sha fuel n ⟨.pfx ⟨pfx, some nit⟩, key, value, err⟩ =
        some ((E.filter fun e => pfx <+: e.1).map entryOf, last) ∧ last.Err = none := by
  intro E
  induction E with
  | nil =>
    intro n nit K key value err hgood herr hord habove hw hK hn
    obtain ⟨m, rfl⟩ : ∃ m, n = m + 1 := ⟨n - 1, by simp at hn; omega⟩
    have hspec := Iterator.Next_pfx_walk fuel key value err hgood herr hord habove hw hK
    rcases hnext : Iterator.Next sha fuel ⟨.pfx ⟨pfx, some nit⟩, key, value, err⟩ with
      _ | ⟨_ | _, it'⟩ <;> rw [hnext] at hspec
    · exact hspec.elim
    · exact ⟨it', Iterator.collect_false hnext, hspec.2.2.2⟩
    · obtain ⟨q, v, E', -, -, hE, -⟩ := hspec
      cases hE
  | cons e E ih =>
    intro n nit K key value err hgood herr hord habove hw hK hn
    obtain ⟨m, rfl⟩ : ∃ m, n = m + 1 := ⟨n - 1, by simp at hn; omega⟩
    have hspec := Iterator.Next_pfx_walk fuel key value err hgood herr hord habove hw hK
    rcases hnext : Iterator.Next sha fuel ⟨.pfx ⟨pfx, some nit⟩, key, value, err⟩ with
      _ | ⟨_ | _, it'⟩ <;> rw [hnext] at hspec
    · exact hspec.elim
    · -- the loop stops: no value left is under the prefix
      obtain ⟨hnone, -, -, herr'⟩ := hspec
      rw [List.filter_eq_nil_iff.mpr fun q hq => by simpa using hnone q hq]
      exact ⟨it', Iterator.collect_false hnext, herr'⟩
    · obtain ⟨q, v, E', nit', K', hE, hq, rfl, hgood', herr', hord', habove', hw', hK'⟩ := hspec
      obtain ⟨rfl, rfl⟩ := List.cons.inj hE
      obtain ⟨last, hrest, hlast⟩ :=
        ih m _ _ err hgood' herr' hord' habove' hw' (by omega) (by simpa using hn)
      refine ⟨last, ?_, hlast⟩
      rw [Iterator.collect_true hnext, hrest, List.filter_cons_of_pos (by simpa using hq)]
      rfl

/-! ## The trie's iterators -/

/-- {lit}`newNodeIterator` on a trie that hashing leaves as it is, at a root other than
{lit}`emptyState`: the seek stops where the walk of the root meets exactly the values
not before the start key, or at the end when there are none. -/
theorem newNodeIterator_walk {t t' : Trie} {r : Uranus.Hash} (hhash : t.Hash sha = some (r, t'))
    (hidem : t'.Hash sha = some (r, t')) (hr : r ≠ emptyState sha) {E : List (List Nibble × Bytes)}
    {K : Nat} (hw : Walks t'.db t'.cachegen [] t'.root E K) (start : Bytes) {fuel : Nat}
    (hfuel : K < fuel) :
    ∃ nit, newNodeIterator sha t start fuel = some nit ∧
      ((nit.err = some .iteratorEnd ∧
          E.filter (fun q => ¬ q.1 < (keybytesToHex start).dropLast) = []) ∨
        (nit.err = none ∧ nit.Good sha t' ∧ Ordered (nit.pending true) ∧
          (∀ c ∈ nit.pending true, ¬ c.1 < (keybytesToHex start).dropLast) ∧
          ∃ K', K' < fuel ∧ PendWalks t'.db t'.cachegen (nit.pending true)
            (E.filter fun q => ¬ q.1 < (keybytesToHex start).dropLast) K')) := by
  -- the seek starts before the root, which is the only pending subtree
  have hgood₀ : (nodeIterator.mk (some t') [] [] none).Good sha t' := ⟨rfl, ⟨r, hidem⟩, by simp⟩
  have hpend₀ : ∀ d, (nodeIterator.mk (some t') [] [] none).pending d = [([], t'.root)] :=
    fun d => rfl
  have hw₀ : PendWalks t'.db t'.cachegen [([], t'.root)] E K := by
    simpa using PendWalks.cons hw .nil
  obtain ⟨it', e, hloop, hres⟩ := @seekLoop_walk sha t' (keybytesToHex start).dropLast start fuel
    _ E K hgood₀ (by rw [hpend₀]; exact List.pairwise_singleton _ _) (by rw [hpend₀]; exact hw₀)
    hfuel
  have hnew : newNodeIterator sha t start fuel = some { it' with err := e } := by
    simp only [newNodeIterator, hhash, if_neg hr, nodeIterator.seek, hloop, Option.bind_eq_bind,
      Option.bind_some]
    rfl
  refine ⟨_, hnew, ?_⟩
  rcases hres with ⟨rfl, hnil⟩ | ⟨rfl, hgood, -, hord, habove, K', hK', hw'⟩
  · exact .inl ⟨rfl, hnil⟩
  · exact .inr ⟨rfl, ⟨hgood.trie, hgood.hashed, hgood.index⟩, hord, habove, K', by omega, hw'⟩

/-- The loop over the iterator of {lit}`Trie.NodeIterator` returns the values the walk
of the hashed root meets at paths not before the prefixed start key, in the order of
the walk, and ends with no error. -/
theorem NodeIterator_collect {t t' : Trie} {r : Uranus.Hash} (hhash : t.Hash sha = some (r, t'))
    (hidem : t'.Hash sha = some (r, t')) (hr : r ≠ emptyState sha) {E : List (List Nibble × Bytes)}
    {K : Nat} (hw : Walks t'.db t'.cachegen [] t'.root E K) (start : Bytes) {fuel n : Nat}
    (hfuel : K < fuel) (hn : E.length < n) :
    ∃ it last, t.NodeIterator sha start fuel = some it ∧
      Iterator.collect sha fuel n (NewIterator it) =
        some ((E.filter fun q => ¬ q.1 < (keybytesToHex (t.keyPrefix ++ start)).dropLast).map entryOf,
          last) ∧ last.Err = none := by
  obtain ⟨nit, hnew, hres⟩ := newNodeIterator_walk hhash hidem hr hw (t.keyPrefix ++ start) hfuel
  have hit : t.NodeIterator sha start fuel = some (.node nit) := by
    show (newNodeIterator sha t (t.keyPrefix ++ start) fuel).map NodeIterator.node = _
    rw [hnew]
    rfl
  obtain ⟨f, rfl⟩ : ∃ f, fuel = f + 1 := ⟨fuel - 1, by omega⟩
  obtain ⟨m, rfl⟩ : ∃ m, n = m + 1 := ⟨n - 1, by omega⟩
  rcases hres with ⟨herr, hnil⟩ | ⟨herr, hgood, -, -, K', hK', hw'⟩
  · -- the seek reached the end: the loop stops at once
    rw [hnil]
    exact ⟨_, _, hit, Iterator.collect_false (Iterator.Next_node_ended herr f [] [] none), rfl⟩
  · obtain ⟨last, hcollect, hlast⟩ := Iterator.collect_node _ _ [] [] none hgood herr hw' hK'
      (lt_of_le_of_lt (List.length_filter_le _ _) hn)
    exact ⟨_, last, hit, hcollect, hlast⟩

/-- Among the values not before a key, those under it are the values under it. -/
theorem filter_prefix_of_not_lt (E : List (List Nibble × Bytes)) (k : List Nibble) :
    (E.filter fun q => ¬ q.1 < k).filter (fun q => k <+: q.1) = E.filter fun q => k <+: q.1 := by
  rw [List.filter_filter]
  refine List.filter_congr fun q _ => ?_
  by_cases hq : k <+: q.1
  · simp [hq, not_lt_of_isPrefix hq]
  · simp [hq]

/-- The loop over the iterator of {lit}`Trie.PrefixIterator` returns the values the walk
of the hashed root meets under the prefixed prefix, in the order of the walk, and
ends with no error. -/
theorem PrefixIterator_collect {t t' : Trie} {r : Uranus.Hash} (hhash : t.Hash sha = some (r, t'))
    (hidem : t'.Hash sha = some (r, t')) (hr : r ≠ emptyState sha) {E : List (List Nibble × Bytes)}
    {K : Nat} (hw : Walks t'.db t'.cachegen [] t'.root E K) (pfx : Bytes) {fuel n : Nat}
    (hfuel : K < fuel) (hn : E.length < n) :
    ∃ it last, t.PrefixIterator sha pfx fuel = some it ∧
      Iterator.collect sha fuel n (NewIterator it) =
        some ((E.filter fun q => (keybytesToHex (t.keyPrefix ++ pfx)).dropLast <+: q.1).map entryOf,
          last) ∧ last.Err = none := by
  obtain ⟨nit, hnew, hres⟩ := newNodeIterator_walk hidem hidem hr hw (t.keyPrefix ++ pfx) hfuel
  have hit : t.PrefixIterator sha pfx fuel =
      some (.pfx ⟨(keybytesToHex (t.keyPrefix ++ pfx)).dropLast, some nit⟩) := by
    show (newPrefixIterator sha t (t.keyPrefix ++ pfx) fuel).map NodeIterator.pfx = _
    simp only [newPrefixIterator, hhash, if_neg hr, hnew, Option.bind_eq_bind, Option.bind_some]
    rfl
  obtain ⟨f, rfl⟩ : ∃ f, fuel = f + 1 := ⟨fuel - 1, by omega⟩
  obtain ⟨m, rfl⟩ : ∃ m, n = m + 1 := ⟨n - 1, by omega⟩
  rcases hres with ⟨herr, hnil⟩ | ⟨herr, hgood, hord, habove, K', hK', hw'⟩
  · -- the seek reached the end: the loop stops at once
    rw [← filter_prefix_of_not_lt, hnil]
    refine ⟨_, _, hit, Iterator.collect_false
      (Iterator.Next_pfx_stop (nodeIterator.Next_ended sha herr true f) (Bool.false_and _) [] [] none),
      by simp [nodeIterator.Error, herr]⟩
  · obtain ⟨last, hcollect, hlast⟩ := Iterator.collect_pfx _ _ [] [] none hgood herr hord habove
      hw' hK' (lt_of_le_of_lt (List.length_filter_le _ _) hn)
    rw [filter_prefix_of_not_lt] at hcollect
    exact ⟨_, last, hit, hcollect, hlast⟩

end KeyValue

end Mtp
end Uranus
