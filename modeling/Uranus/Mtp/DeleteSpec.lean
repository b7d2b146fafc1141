import Uranus.Mtp.InsertSpec

/-!
# Deletion removes the key (`Trie.TryDelete`)

Deleting a key from a canonical trie gives a canonical trie whose map is the old
one without the key, or stops with a missing-node error.  The hard cases are the
repairs {lit}`delete` makes on the way back up: a short node whose child became a
short node absorbs the child's key, and a full node left with one child becomes a
short node, merged with that child when it resolves to a short node.  Both keep
the trie canonical, so no node of the result is a short node over a short node or
a full node with a single child.

Main results:

- Theorem {lit}`collapseChild_spec`: the node a full node with one child left
  becomes stores the same map.
- Theorem {lit}`deleteWith_spec`: one level of the deletion.
- Theorem {lit}`delete_spec`: the deletion with enough levels.
- Theorems {lit}`TryDelete_spec` and {lit}`TryUpdate_delete_spec`: deletion on a trie
  whose root stores {lit}`m`.
-/

namespace Uranus
namespace Mtp

open Lib

/-- What a deletion under the rest {lit}`q` may end in: a node that is no hash node
storing the map without {lit}`q`, with the flag false only when nothing was stored
there, or a missing node. -/
def DeleteResult (S : Hash → Bytes → Prop) (m : Content) (q : List Nibble)
    (r : Except TrieError (Bool × Node)) : Prop :=
  (∃ d n', r = .ok (d, n') ∧ Rep S n' (Function.update m q none) ∧ n'.isHash = false ∧
    (d = false → m q = none)) ∨ ∃ e, r = .error (.missing e)

variable {S : Hash → Bytes → Prop} (t : Trie)

/-- A deletion that reports no change left a node storing the old map. -/
theorem update_none_eq_self {m : Content} {q : List Nibble} (h : m q = none) :
    Function.update m q none = m := by
  rw [← h]
  exact Function.update_eq_self q m

/-! ## Repairs -/

/-- A short node over the node a deletion left below it: merged with it when it is a
short node, else kept over it. -/
theorem short_over_rep {nkey : List Nibble} (hkey : nkey ≠ []) (hnib : IsNibbles nkey)
    {child : Node} {m : Content} (hrep : Rep S child m) (hterm : Terminal m)
    (hhash : child.isHash = false) (hocc : KeyMap.Occupied m) :
    (∀ ck cv f, child = .short ck cv f → Rep S (.short (nkey ++ ck) cv t.newFlag)
      (KeyMap.prefixed nkey m)) ∧
    ((∀ ck cv f, child ≠ .short ck cv f) → Rep S (.short nkey child t.newFlag)
      (KeyMap.prefixed nkey m)) := by
  constructor
  · rintro ck cv f rfl
    cases hrep with
    | @short _ _ _ mc hck hshape hval hsplit =>
      rw [← KeyMap.prefixed_append]
      exact Rep.short (by simp [hkey]) (hshape.join hnib) hval hsplit
  · intro hshort
    exact Rep.short hkey (.inr ⟨hnib, hterm⟩) hrep (hrep.splits_of_not_short hshort hhash hocc)

/-- A full node with one occupied child becomes a short node over that child's
nibble: merged with the child when it resolves to a short node.  The value slot is
a value and is not resolved. -/
theorem collapseChild_spec (hD : DbAgrees S t.db) {cs : Fin 17 → Node}
    {ms : Fin 17 → Content} (hcs : ∀ i, Rep S (cs i) (ms i))
    (hslot : ∀ i, ShortShape [i] (ms i)) {pos : Nibble} (hpos : KeyMap.Occupied (ms pos))
    (honly : ∀ i, i ≠ pos → ms i = KeyMap.empty) (pfx : List Nibble) :
    (∃ n', t.collapseChild cs pos pfx = .ok n' ∧ Rep S n' (KeyMap.branch ms) ∧
      n'.isHash = false) ∨ ∃ e, t.collapseChild cs pos pfx = .error (.missing e) := by
  rw [KeyMap.branch_eq_prefixed_single ms pos honly]
  unfold Trie.collapseChild
  by_cases h16 : pos.val ≠ 16
  · have h16' : pos ≠ 16 := fun h => h16 (by rw [h]; rfl)
    have hterm : Terminal (ms pos) := by
      rcases shortShape_singleton_iff.mp (hslot pos) with ⟨h, -⟩ | ⟨-, h⟩
      · exact absurd h h16'
      · exact h
    have hnib : IsNibbles [pos] := isNibbles_singleton_iff.mpr h16'
    rw [if_pos h16]
    rcases resolve_spec t hD (hcs pos) pfx with ⟨n₀, hres, hrep₀, hnh, -⟩ | ⟨e, hres⟩
    · left
      rw [hres]
      cases n₀ with
      | short ck cv f =>
        exact ⟨_, rfl, (short_over_rep t (List.cons_ne_nil pos []) hnib hrep₀ hterm hnh hpos).1
          ck cv f rfl, rfl⟩
      | nil => exact absurd (hrep₀.isNil_eq_false_iff.mpr hpos) (by simp [Node.isNil])
      | value v =>
        -- a value stands after the terminator, never in a nibble slot
        have hleaf := hrep₀.value_content
        exact absurd (hterm [] (by simp [hleaf])) (fun h => h.ne_nil rfl)
      | full cs' f' =>
        -- the child is this full node or a hash node resolving to it
        exact ⟨_, rfl, Rep.short (List.cons_ne_nil pos []) (.inr ⟨hnib, hterm⟩) (hcs pos)
          hrep₀.splits_of_full, rfl⟩
      | hash h => cases hnh
    · exact .inr ⟨e, by rw [hres]⟩
  · -- the value slot holds a value, which is not resolved
    have hend : AtEnd (ms pos) := by
      rcases shortShape_singleton_iff.mp (hslot pos) with ⟨-, h⟩ | ⟨h, -⟩
      · exact h
      · exact absurd (Fin.ext (not_not.mp h16)) h
    rw [if_neg h16]
    exact .inl ⟨_, rfl, Rep.short (List.cons_ne_nil pos []) (hslot pos) (hcs pos)
      ((hcs pos).splits_of_atEnd hend hpos), rfl⟩

/-! ## One level -/

/-- A short node: kept when its key does not start the rest, removed when the key is
the whole rest, else the rest of the rest is deleted below it and the result
repaired. -/
theorem deleteWith_short
    (next : Node → List Nibble → List Nibble → Except TrieError (Bool × Node))
    {nkey : List Nibble} {val : Node} {f : NodeFlag} {m : Content} (hkey : nkey ≠ [])
    (hshape : ShortShape nkey m) (hval : Rep S val m) (hsplit : KeyMap.Splits m)
    {q : List Nibble} (hpos : Position (KeyMap.prefixed nkey m) q) (pfx : List Nibble)
    (hchild : ∀ q', q = nkey ++ q' → q' ≠ [] →
      DeleteResult S m q' (t.deleteWith next val (pfx ++ nkey) q')) :
    DeleteResult S (KeyMap.prefixed nkey m) q (t.deleteWith next (.short nkey val f) pfx q) := by
  have hle := commonPrefixLen_le_right q nkey
  simp only [Trie.deleteWith]
  by_cases h1 : prefixLen q nkey < nkey.length
  · -- the key leaves the short node's key: nothing is stored under it
    rw [if_pos h1]
    have hnp : ¬ nkey <+: q := by
      intro hp
      have heq := (commonPrefixLen_eq_length_iff nkey q).mpr hp
      rw [commonPrefixLen_comm] at heq
      exact absurd heq (Nat.ne_of_lt h1)
    have hnone := KeyMap.prefixed_apply_eq_none hnp m
    refine .inl ⟨false, _, rfl, ?_, rfl, fun _ => hnone⟩
    rw [update_none_eq_self hnone]
    exact Rep.short hkey hshape hval hsplit
  · rw [if_neg h1]
    have hpre : nkey <+: q := by
      rw [← commonPrefixLen_eq_length_iff, commonPrefixLen_comm]
      unfold prefixLen at h1
      omega
    obtain ⟨q', rfl⟩ := hpre
    have hq := hpos.terminated (by simp [hkey])
    have hml : prefixLen (nkey ++ q') nkey = nkey.length := by
      unfold prefixLen at h1 ⊢
      omega
    unfold DeleteResult
    rw [hml, KeyMap.update_prefixed_append]
    by_cases hq' : q' = []
    · -- the key is the short node's key: the node goes
      subst hq'
      rw [if_pos (by simp)]
      have hend : AtEnd m := by
        rcases hshape with ⟨-, he⟩ | ⟨hn, -⟩
        · exact he
        · exact absurd hn (by simpa using hq.not_isNibbles)
      refine .inl ⟨true, .nil, rfl, ?_, rfl, (fun h => by cases h)⟩
      rw [hend.update_nil_none, KeyMap.prefixed_empty]
      exact Rep.nil
    · rw [if_neg (by simpa using hq'), List.take_left' rfl, List.drop_left' rfl]
      -- a key with more below it is no terminated key
      obtain ⟨hnib, hterm⟩ : IsNibbles nkey ∧ Terminal m := by
        rcases hshape with ⟨hk, -⟩ | h
        · have heq := Terminated.eq_of_prefix hk hq (List.prefix_append nkey q')
          exact absurd (by simpa using heq) hq'
        · exact h
      rcases hchild q' rfl hq' with ⟨d, nn, hr, hrep, hnh, hd⟩ | ⟨e, hr⟩
      · rw [hr]
        cases d with
        | false =>
          refine .inl ⟨false, _, rfl, ?_, rfl, fun _ => by simpa using hd rfl⟩
          rw [update_none_eq_self (hd rfl)]
          exact Rep.short hkey hshape hval hsplit
        | true =>
          obtain ⟨k', ks', rfl⟩ := List.exists_cons_of_ne_nil hq'
          obtain ⟨hmerge, hkeep⟩ := short_over_rep t hkey hnib hrep (hterm.update (.inl rfl)) hnh
            (hsplit.occupied_update_cons k' ks' none)
          cases nn with
          | short ck cv f' => exact .inl ⟨true, _, rfl, hmerge ck cv f' rfl, rfl, (fun h => by cases h)⟩
          | nil => exact .inl ⟨true, _, rfl, hkeep (fun _ _ _ h => by cases h), rfl, (fun h => by cases h)⟩
          | value v => exact .inl ⟨true, _, rfl, hkeep (fun _ _ _ h => by cases h), rfl, (fun h => by cases h)⟩
          | full cs f' => exact .inl ⟨true, _, rfl, hkeep (fun _ _ _ h => by cases h), rfl, (fun h => by cases h)⟩
          | hash h => cases hnh
      · rw [hr]
        exact .inr ⟨e, rfl⟩

/-- A full node deletes the rest after the first nibble from that child; left with a
single child it collapses to a short node. -/
theorem deleteWith_full (hD : DbAgrees S t.db)
    (next : Node → List Nibble → List Nibble → Except TrieError (Bool × Node))
    {cs : Fin 17 → Node} {f : NodeFlag} {ms : Fin 17 → Content} (hcs : ∀ i, Rep S (cs i) (ms i))
    (hslot : ∀ i, ShortShape [i] (ms i)) (hsplit : KeyMap.Splits (KeyMap.branch ms))
    {k : Nibble} {ks : List Nibble} (hq : Terminated (k :: ks)) (pfx : List Nibble)
    (hchild : DeleteResult S (ms k) ks (t.deleteWith next (cs k) (pfx ++ [k]) ks)) :
    DeleteResult S (KeyMap.branch ms) (k :: ks) (t.deleteWith next (.full cs f) pfx (k :: ks)) := by
  simp only [Trie.deleteWith]
  rcases hchild with ⟨d, nn, hr, hrep, -, hd⟩ | ⟨e, hr⟩
  · rw [hr]
    cases d with
    | false =>
      refine .inl ⟨false, _, rfl, ?_, rfl, fun _ => by simpa using hd rfl⟩
      rw [update_none_eq_self (by simpa using hd rfl)]
      exact Rep.full hcs hslot hsplit
    | true =>
      unfold DeleteResult
      dsimp only
      have hcs' := reps_setChild (k := k) hcs hrep
      have hslot' := shortShape_update_slots hslot ((hslot k).update hq none)
      have hocc := hsplit.occupied_update_cons k ks none
      rw [KeyMap.update_branch_cons] at hocc ⊢
      -- the non-nil children are exactly the occupied ones
      have hmem : ∀ i, i ∈ nonNilIndices (setChild cs k nn) ↔
          KeyMap.Occupied (Function.update ms k (Function.update (ms k) ks none) i) := by
        intro i
        rw [mem_nonNilIndices]
        exact (hcs' i).isNil_eq_false_iff
      have hnd := nodup_nonNilIndices (setChild cs k nn)
      cases hl : nonNilIndices (setChild cs k nn) with
      | nil =>
        obtain ⟨i, hi⟩ := (KeyMap.occupied_branch_iff _).mp hocc
        have hi' := (hmem i).mpr hi
        rw [hl] at hi'
        cases hi'
      | cons a l =>
        rw [hl] at hmem hnd
        cases l with
        | nil =>
          have honly : ∀ i, i ≠ a →
              Function.update ms k (Function.update (ms k) ks none) i = KeyMap.empty := by
            intro i hi
            apply KeyMap.eq_empty_of_not_occupied
            intro ho
            exact hi (by simpa using (hmem i).mpr ho)
          rcases collapseChild_spec t hD hcs' hslot' ((hmem a).mp (by simp)) honly pfx with
            ⟨n', hc, hrep', hnh'⟩ | ⟨e, hc⟩
          · exact .inl ⟨true, n', by simp only [hc, Except.map], hrep', hnh', (fun h => by cases h)⟩
          · exact .inr ⟨e, by simp only [hc, Except.map]⟩
        | cons b l =>
          have hab : a ≠ b := fun hab => (List.nodup_cons.mp hnd).1 (by simp [hab])
          have hsplit' := (KeyMap.splits_branch_iff _).mpr
            ⟨a, b, hab, (hmem a).mp (by simp), (hmem b).mp (by simp)⟩
          exact .inl ⟨true, _, rfl, Rep.full hcs' hslot' hsplit', rfl, (fun h => by cases h)⟩
  · rw [hr]
    exact .inr ⟨e, rfl⟩

/-- A hash node is resolved and the loaded node handed to the next level, which
replaces the hash node even when nothing changed. -/
theorem deleteWith_hash (hD : DbAgrees S t.db)
    {next : Node → List Nibble → List Nibble → Except TrieError (Bool × Node)}
    {h : Hash} {m : Content} (hrep : Rep S (.hash h) m) {q : List Nibble} (pfx : List Nibble)
    (hnext : ∀ n, Rep S n m → n.isInner = true → DeleteResult S m q (next n pfx q)) :
    DeleteResult S m q (t.deleteWith next (.hash h) pfx q) := by
  rcases resolveHash_spec t hD hrep pfx with ⟨n₀, hres, hrep₀, hinner⟩ | ⟨e, hres⟩
  · rcases hnext n₀ hrep₀ hinner with ⟨d, nn, hr, hrep', hnh, hd⟩ | ⟨e, hr⟩
    · left
      cases d with
      | false =>
        have hnh₀ := Node.isHash_eq_false_of_isInner hinner
        refine ⟨false, n₀, by simp only [Trie.deleteWith, hres, hr], ?_, hnh₀, hd⟩
        rw [update_none_eq_self (hd rfl)]
        exact hrep₀
      | true => exact ⟨true, nn, by simp only [Trie.deleteWith, hres, hr], hrep', hnh, hd⟩
    · exact .inr ⟨e, by simp only [Trie.deleteWith, hres, hr]⟩
  · exact .inr ⟨e, by simp only [Trie.deleteWith, hres]⟩

/-- One level of the deletion: correct on every position no longer than {lit}`F`, and
shorter than {lit}`F` at a hash node, given a next level that is correct on the full
and short nodes it is handed at rests shorter than {lit}`F`. -/
theorem deleteWith_spec (hD : DbAgrees S t.db) (F : Nat)
    {next : Node → List Nibble → List Nibble → Except TrieError (Bool × Node)}
    (hnext : ∀ n m pfx q, Rep S n m → n.isInner = true → Position m q → q.length < F →
      DeleteResult S m q (next n pfx q))
    {n : Node} {m : Content} (hrep : Rep S n m) :
    ∀ pfx q, Position m q → q.length ≤ F → (n.isHash = true → q.length < F) →
      DeleteResult S m q (t.deleteWith next n pfx q) := by
  induction hrep with
  | nil =>
    intro pfx q _ _ _
    refine .inl ⟨false, .nil, rfl, ?_, rfl, fun _ => rfl⟩
    rw [update_none_eq_self rfl]
    exact Rep.nil
  | value hw =>
    intro pfx q hpos _ _
    cases q with
    | nil => exact .inl ⟨true, .nil, rfl, by simpa using Rep.nil, rfl, (fun h => by cases h)⟩
    | cons k ks =>
      -- a value stands after the terminator, where no key is left
      exact absurd rfl (hpos.of_cons.2 [] (by simp)).ne_nil
  | @short key val f m hkey hshape hval hsplit ih =>
    intro pfx q hpos hlen _
    apply deleteWith_short t next hkey hshape hval hsplit hpos pfx
    rintro q' rfl hq'
    have hlt : q'.length < (key ++ q').length := by
      have := List.length_pos_of_ne_nil hkey
      simp only [List.length_append]
      omega
    have hposq := hpos.terminated (by simp [hkey])
    exact ih (pfx ++ key) q' (hshape.position hposq) (by omega) (fun _ => by omega)
  | @full cs f ms hcs hslot hsplit ih =>
    intro pfx q hpos hlen _
    cases q with
    | nil =>
      exact absurd rfl ((Rep.full (S := S) (f := f) hcs hslot hsplit).query_ne_nil rfl hpos.compat)
    | cons k ks =>
      have hq := hpos.of_cons.1
      have hlen' : ks.length < F := by
        simp only [List.length_cons] at hlen
        omega
      exact deleteWith_full t hD next hcs hslot hsplit hq pfx
        (ih k (pfx ++ [k]) ks ((hslot k).position hq) (Nat.le_of_lt hlen') (fun _ => hlen'))
  | @hash h enc m hS dec hdec hrep ih =>
    intro pfx q hpos _ hlt
    exact deleteWith_hash t hD (Rep.hash hS dec hdec hrep) pfx
      fun n hn hinner => hnext n m pfx q hn hinner hpos (hlt rfl)

/-- The deletion with {lit}`F` levels, on a position no longer than {lit}`F` and
shorter at a hash node. -/
theorem delete_spec (hD : DbAgrees S t.db) :
    ∀ (F : Nat) {n : Node} {m : Content}, Rep S n m → ∀ pfx q, Position m q → q.length ≤ F →
      (n.isHash = true → q.length < F) → (n.isInner = true ∨ 0 < F) →
      DeleteResult S m q (t.delete F n pfx q) := by
  intro F
  induction F with
  | zero =>
    intro n m hrep pfx q hpos hlen _ hlevel
    rcases hlevel with hinner | hpos'
    · exact absurd (List.length_eq_zero_iff.mp (by omega))
        (hrep.query_ne_nil hinner hpos.compat)
    · omega
  | succ F ih =>
    intro n m hrep pfx q hpos hlen hlt _
    apply deleteWith_spec t hD (F + 1) _ hrep pfx q hpos hlen hlt
    intro n' m' pfx' q' hrep' hinner' hpos' hlt'
    have hnh := Node.isHash_eq_false_of_isInner hinner'
    exact ih hrep' pfx' q' hpos' (by omega) (by simp [hnh]) (.inl hinner')

/-- The deletion {lit}`TryDelete` and {lit}`TryUpdate` with an empty value run from the
root, on the full hex key. -/
theorem delete_root_spec (hD : DbAgrees S t.db) {m : Content}
    (hrep : Rep S t.root m) (hterm : Terminal m) (k : List Nibble) (hk : Terminated k) :
    (∃ n', (t.delete (Trie.levels k) t.root [] k).map (fun r => { t with root := r.2 }) =
        .ok { t with root := n' } ∧ Rep S n' (Function.update m k none)) ∨
      ∃ e, (t.delete (Trie.levels k) t.root [] k).map (fun r => { t with root := r.2 }) =
        .error (.missing e) := by
  rcases delete_spec t hD (Trie.levels k) hrep [] k (.inl ⟨hk, hterm⟩)
      (by simp [Trie.levels]) (fun _ => by simp [Trie.levels]) (.inr (by simp [Trie.levels])) with
    ⟨d, n', hr, hrep', -⟩ | ⟨e, hr⟩
  · exact .inl ⟨n', by simp only [hr, Except.map], hrep'⟩
  · exact .inr ⟨e, by simp only [hr, Except.map]⟩

/-- {lit}`TryDelete` on a trie whose root stores {lit}`m` at terminated paths: the
new root stores {lit}`m` without the key; or a node is missing. -/
theorem TryDelete_spec (hD : DbAgrees S t.db) {m : Content}
    (hrep : Rep S t.root m) (hterm : Terminal m) (key : Bytes) :
    (∃ n', t.TryDelete key = .ok { t with root := n' } ∧
      Rep S n' (Function.update m (keybytesToHex (t.keyPrefix ++ key)) none)) ∨
      ∃ e, t.TryDelete key = .error (.missing e) :=
  delete_root_spec t hD hrep hterm _ (keybytesToHex_terminated _)

/-- {lit}`TryUpdate` with an empty value deletes the key. -/
theorem TryUpdate_delete_spec (hD : DbAgrees S t.db) {m : Content}
    (hrep : Rep S t.root m) (hterm : Terminal m) (key : Bytes) :
    (∃ n', t.TryUpdate key [] = .ok { t with root := n' } ∧
      Rep S n' (Function.update m (keybytesToHex (t.keyPrefix ++ key)) none)) ∨
      ∃ e, t.TryUpdate key [] = .error (.missing e) := by
  have h := delete_root_spec t hD hrep hterm _ (keybytesToHex_terminated (t.keyPrefix ++ key))
  simpa only [Trie.TryUpdate, ne_eq, not_true_eq_false, if_false] using h

end Mtp
end Uranus
