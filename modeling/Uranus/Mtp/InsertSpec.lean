import Uranus.Mtp.GetSpec

/-!
# Insertion stores the value (`Trie.TryUpdate`)

Inserting a non-empty value into a canonical trie gives a canonical trie whose map
is the old one with the key set to the value, or stops with a missing-node error.
The proof follows {lit}`insert` case by case: the empty rest replaces the node by
the value, a short node either passes the rest to its child or is split into an
extension to a fresh full node, a full node passes it to one child, and a hash
node is resolved and handed to the next level.  The reported flag is only false
when the value was already stored.

Main results:

- Theorem {lit}`insertWith_spec`: one level of the insertion, given that the next
  level is correct on shorter rests.
- Theorem {lit}`insert_spec`: the insertion with enough levels.
- Theorem {lit}`TryUpdate_insert_spec`: {lit}`TryUpdate` with a non-empty value on a
  trie whose root stores {lit}`m`.
-/

namespace Uranus
namespace Mtp

open Lib

/-- What an insertion of {lit}`v` under the rest {lit}`q` may end in: a node storing
the updated map, with the flag false only when {lit}`v` was already there, or a
missing node. -/
def InsertResult (S : Hash → Bytes → Prop) (m : Content) (q : List Nibble) (v : Bytes)
    (r : Except TrieError (Bool × Node)) : Prop :=
  (∃ d n', r = .ok (d, n') ∧ Rep S n' (Function.update m q (some v)) ∧ (d = false → m q = some v)) ∨
    ∃ e, r = .error (.missing e)

variable {S : Hash → Bytes → Prop} (t : Trie)

/-- A missing node is an allowed outcome of any insert. -/
theorem InsertResult.missing {m : Content} {q : List Nibble} {v : Bytes} (e : MissingNodeError) :
    InsertResult S m q v (.error (.missing e)) := .inr ⟨e, rfl⟩

/-- An insertion that reports no change left a node storing the old map. -/
theorem update_eq_self_of_stored {m : Content} {q : List Nibble} {v : Bytes}
    (h : m q = some v) : Function.update m q (some v) = m := by
  rw [← h]
  exact Function.update_eq_self q m

/-! ## New nodes -/

/-- {lit}`insertNil` puts a node under a key, or leaves it when the key is empty. -/
theorem insertNil_rep {r : List Nibble} {val : Node} {m : Content} (hval : Rep S val m)
    (hsplit : KeyMap.Splits m) (hshape : r ≠ [] → ShortShape r m) :
    Rep S (t.insertNil r val) (KeyMap.prefixed r m) := by
  unfold Trie.insertNil
  by_cases hr : r = []
  · subst hr
    simpa using hval
  · rw [if_neg hr]
    exact Rep.short hr (hshape hr) hval hsplit

/-- One side of the full node built at a divergence: the node under the rest after
nibble {lit}`a` stores the moved map, which has the shape of child {lit}`a`. -/
theorem branch_child {c r : List Nibble} {a : Nibble} {val : Node} {m : Content}
    (hval : Rep S val m) (hsplit : KeyMap.Splits m) (hshape : ShortShape (c ++ a :: r) m) :
    Rep S (t.insertNil r val) (KeyMap.prefixed r m) ∧ ShortShape [a] (KeyMap.prefixed r m) ∧
      KeyMap.Occupied (KeyMap.prefixed r m) := by
  have hsplit₁ : c ++ a :: r = (c ++ [a]) ++ r := by simp
  have hsplit₂ : c ++ a :: r = c ++ ([a] ++ r) := by simp
  refine ⟨insertNil_rep t hval hsplit fun hr => ?_, ?_,
    (KeyMap.occupied_prefixed_iff r m).mpr hsplit.occupied⟩
  · rw [hsplit₁] at hshape
    exact hshape.drop_left hr
  · rw [hsplit₂] at hshape
    exact (hshape.drop_left (by simp)).append

/-- Replacing one child of a full node by a node of a map replaces that child's map. -/
theorem reps_setChild {cs : Fin 17 → Node} {ms : Fin 17 → Content} (hcs : ∀ i, Rep S (cs i) (ms i))
    {k : Nibble} {nn : Node} {mk : Content} (hnn : Rep S nn mk) :
    ∀ i, Rep S (setChild cs k nn i) (Function.update ms k mk i) := by
  intro i
  by_cases hik : i = k
  · subst hik
    simpa using hnn
  · simpa [hik] using hcs i

/-- The full node {lit}`branch` builds where the stored key and the inserted key part:
the old child under the stored key's nibble and the value under the new key's. -/
theorem branch_rep {c rn rk : List Nibble} {a b : Nibble} (hab : b ≠ a) {val : Node}
    {m : Content} {v : Bytes} (hv : v ≠ []) (hval : Rep S val m) (hsplit : KeyMap.Splits m)
    (hshape : ShortShape (c ++ a :: rn) m) (hq : Terminated (c ++ b :: rk)) :
    Rep S (t.branch (c ++ a :: rn) val (c ++ b :: rk) (.value v) c.length a b)
      (KeyMap.branch (Function.update (Function.update (fun _ => KeyMap.empty) a
        (KeyMap.prefixed rn m)) b (KeyMap.prefixed rk (KeyMap.leaf v)))) := by
  have hleaf : ShortShape (c ++ b :: rk) (KeyMap.leaf v) := .inl ⟨hq, atEnd_leaf v⟩
  obtain ⟨hX, hXs, hXo⟩ := branch_child t hval hsplit hshape
  obtain ⟨hY, hYs, hYo⟩ := branch_child t (Rep.value hv) (KeyMap.splits_leaf v) hleaf
  have hdrop : ∀ (x : Nibble) (r : List Nibble), (c ++ x :: r).drop (c.length + 1) = r := by
    intro x r
    simp
  unfold Trie.branch
  rw [hdrop, hdrop]
  apply Rep.full
  · -- the two new children over the nil children of a fresh full node
    exact reps_setChild (reps_setChild (fun _ => Rep.nil) hX) hY
  · exact shortShape_update_slots (shortShape_update_slots
      (fun _ => shortShape_singleton_empty _) hXs) hYs
  · refine (KeyMap.splits_branch_iff _).mpr ⟨b, a, hab, ?_, ?_⟩
    · simpa using hYo
    · simpa [Function.update_of_ne (Ne.symm hab)] using hXo

/-! ## One level -/

section Level

variable {v : Bytes} (hv : v ≠ [])
include hv

/-- At the empty rest the node is replaced by the value. -/
theorem insertWith_nil_rest
    (next : Node → List Nibble → List Nibble → Node → Except TrieError (Bool × Node))
    {n : Node} {m : Content} (hrep : Rep S n m) (hpos : Position m []) (pfx : List Nibble) :
    InsertResult S m [] v (t.insertWith next n pfx [] (.value v)) := by
  unfold InsertResult
  rw [hpos.atEnd_of_nil.update_nil v]
  left
  cases n with
  | value w =>
    cases hrep with
    | value hw =>
      refine ⟨decide (w ≠ v), .value v, rfl, Rep.value hv, fun hd => ?_⟩
      have hwv : w = v := by simpa using hd
      simp [hwv]
  | nil => exact ⟨true, .value v, rfl, Rep.value hv, (fun h => by cases h)⟩
  | short key val f => exact ⟨true, .value v, rfl, Rep.value hv, (fun h => by cases h)⟩
  | full cs f => exact ⟨true, .value v, rfl, Rep.value hv, (fun h => by cases h)⟩
  | hash h => exact ⟨true, .value v, rfl, Rep.value hv, (fun h => by cases h)⟩

/-- A short node whose key leaves the inserted key before its end is split into an
extension over the common part to a full node holding both. -/
theorem insertWith_short_diverge
    (next : Node → List Nibble → List Nibble → Node → Except TrieError (Bool × Node))
    {nkey : List Nibble} {val : Node} {f : NodeFlag} {m : Content}
    (hshape : ShortShape nkey m) (hval : Rep S val m) (hsplit : KeyMap.Splits m)
    {k : Nibble} {ks : List Nibble} (hq : Terminated (k :: ks))
    (hml : prefixLen (k :: ks) nkey ≠ nkey.length) (pfx : List Nibble) :
    InsertResult S (KeyMap.prefixed nkey m) (k :: ks) v
      (t.insertWith next (.short nkey val f) pfx (k :: ks) (.value v)) := by
  have hml₀ : commonPrefixLen (k :: ks) nkey ≠ nkey.length := hml
  have hle_n := commonPrefixLen_le_right (k :: ks) nkey
  have hle_q := commonPrefixLen_le_left (k :: ks) nkey
  have hlt_q : commonPrefixLen (k :: ks) nkey < (k :: ks).length := by
    -- a key ending inside the stored key would be a proper prefix of a stored path
    by_contra hge
    have hpre : (k :: ks) <+: nkey := (commonPrefixLen_eq_length_iff _ _).mp (by omega)
    obtain ⟨r, hr⟩ := hsplit.occupied
    have hterm := terminal_prefixed hshape (nkey ++ r) (by simpa using hr)
    have heq := Terminated.eq_of_prefix hq hterm (hpre.trans (List.prefix_append nkey r))
    have hlen := congrArg List.length heq
    simp only [List.length_append] at hlen
    omega
  obtain ⟨c, b, a, rk, rn, hqe, hne, hba, hc⟩ :=
    commonPrefixLen_split (k :: ks) nkey hlt_q (by omega)
  subst hne
  have hml' : prefixLen (k :: ks) (c ++ a :: rn) = c.length := hc.symm
  have hdiv := KeyMap.update_prefixed_diverge c rk rn hba m v
  have hbr := branch_rep t hba hv hval hsplit hshape (hqe ▸ hq)
  left
  simp only [Trie.insertWith]
  rw [if_neg hml, hml', hqe]
  simp only [List.getElem?_append_right (Nat.le_refl _), Nat.sub_self,
    List.getElem?_cons_zero, List.take_left', hdiv]
  by_cases hc0 : c = []
  · subst hc0
    refine ⟨true, _, rfl, ?_, (fun h => by cases h)⟩
    simpa using hbr
  · have hlen0 : c.length ≠ 0 := by simpa using hc0
    refine ⟨true, _, by rw [if_neg hlen0], ?_, (fun h => by cases h)⟩
    have hleaf : ShortShape (c ++ b :: rk) (KeyMap.leaf v) := .inl ⟨hqe ▸ hq, atEnd_leaf v⟩
    have hcn : IsNibbles c := hleaf.isNibbles_left (by simp)
    refine Rep.short hc0 (.inr ⟨hcn, ?_⟩) hbr ?_
    · exact (hbr.leaf_or_terminal).resolve_left (by rintro ⟨w, hw, -⟩; cases hw)
    · exact hbr.splits_of_full

omit hv in
/-- A short node whose whole key starts the rest passes the rest of the rest to its
child. -/
theorem insertWith_short_match
    (next : Node → List Nibble → List Nibble → Node → Except TrieError (Bool × Node))
    {key : List Nibble} {val : Node} {f : NodeFlag} {m : Content} (hkey : key ≠ [])
    (hshape : ShortShape key m) (hval : Rep S val m) (hsplit : KeyMap.Splits m)
    {k : Nibble} {ks q : List Nibble} (hq : k :: ks = key ++ q) (hterm : Terminated (key ++ q))
    (pfx : List Nibble)
    (hchild : InsertResult S m q v (t.insertWith next val (pfx ++ key) q (.value v))) :
    InsertResult S (KeyMap.prefixed key m) (k :: ks) v
      (t.insertWith next (.short key val f) pfx (k :: ks) (.value v)) := by
  have hml : prefixLen (k :: ks) key = key.length := by
    unfold prefixLen
    rw [commonPrefixLen_comm, commonPrefixLen_eq_length_iff, hq]
    exact List.prefix_append key q
  simp only [Trie.insertWith]
  rw [if_pos hml, hml, hq, List.take_left' rfl, List.drop_left' rfl]
  rcases hchild with ⟨d, nn, hr, hrep, hd⟩ | ⟨e, hr⟩
  · rw [hr]
    left
    rw [KeyMap.update_prefixed_append]
    cases d with
    | false =>
      refine ⟨false, .short key val f, rfl, ?_, fun _ => by simpa using hd rfl⟩
      rw [update_eq_self_of_stored (hd rfl)]
      exact Rep.short hkey hshape hval hsplit
    | true =>
      exact ⟨true, _, rfl,
        Rep.short hkey (hshape.update hterm _) hrep (hsplit.update_some q v), (fun h => by cases h)⟩
  · rw [hr]
    exact .inr ⟨e, rfl⟩

omit hv in
/-- A full node passes the rest after the first nibble to that child. -/
theorem insertWith_full
    (next : Node → List Nibble → List Nibble → Node → Except TrieError (Bool × Node))
    {cs : Fin 17 → Node} {f : NodeFlag} {ms : Fin 17 → Content} (hcs : ∀ i, Rep S (cs i) (ms i))
    (hslot : ∀ i, ShortShape [i] (ms i)) (hsplit : KeyMap.Splits (KeyMap.branch ms))
    {k : Nibble} {ks : List Nibble} (hq : Terminated (k :: ks)) (pfx : List Nibble)
    (hchild : InsertResult S (ms k) ks v (t.insertWith next (cs k) (pfx ++ [k]) ks (.value v))) :
    InsertResult S (KeyMap.branch ms) (k :: ks) v
      (t.insertWith next (.full cs f) pfx (k :: ks) (.value v)) := by
  simp only [Trie.insertWith]
  rcases hchild with ⟨d, nn, hr, hrep, hd⟩ | ⟨e, hr⟩
  · rw [hr]
    left
    cases d with
    | false =>
      refine ⟨false, .full cs f, rfl, ?_, fun _ => by simpa using hd rfl⟩
      rw [update_eq_self_of_stored (by simpa using hd rfl)]
      exact Rep.full hcs hslot hsplit
    | true =>
      refine ⟨true, _, rfl, ?_, (fun h => by cases h)⟩
      have hsplit' := hsplit.update_some (k :: ks) v
      rw [KeyMap.update_branch_cons] at hsplit' ⊢
      exact Rep.full (reps_setChild hcs hrep)
        (shortShape_update_slots hslot ((hslot k).update hq _)) hsplit'
  · rw [hr]
    exact .inr ⟨e, rfl⟩

omit hv in
/-- A hash node is resolved and the loaded node handed to the next level, which
replaces the hash node even when nothing changed. -/
theorem insertWith_hash (hD : DbAgrees S t.db)
    {next : Node → List Nibble → List Nibble → Node → Except TrieError (Bool × Node)}
    {h : Hash} {m : Content} (hrep : Rep S (.hash h) m) {k : Nibble} {ks : List Nibble}
    (pfx : List Nibble)
    (hnext : ∀ n, Rep S n m → n.isInner = true →
      InsertResult S m (k :: ks) v (next n pfx (k :: ks) (.value v))) :
    InsertResult S m (k :: ks) v (t.insertWith next (.hash h) pfx (k :: ks) (.value v)) := by
  rcases resolveHash_spec t hD hrep pfx with ⟨n₀, hres, hrep₀, hinner⟩ | ⟨e, hres⟩
  · rcases hnext n₀ hrep₀ hinner with ⟨d, nn, hr, hrep', hd⟩ | ⟨e, hr⟩
    · left
      cases d with
      | false =>
        refine ⟨false, n₀, by simp only [Trie.insertWith, hres, hr], ?_, hd⟩
        rw [update_eq_self_of_stored (hd rfl)]
        exact hrep₀
      | true => exact ⟨true, nn, by simp only [Trie.insertWith, hres, hr], hrep', hd⟩
    · exact .inr ⟨e, by simp only [Trie.insertWith, hres, hr]⟩
  · exact .inr ⟨e, by simp only [Trie.insertWith, hres]⟩

/-- One level of the insertion: correct on every position no longer than {lit}`F`,
and shorter than {lit}`F` at a hash node, given a next level that is correct on the
full and short nodes it is handed at rests shorter than {lit}`F`. -/
theorem insertWith_spec (hD : DbAgrees S t.db) (F : Nat)
    {next : Node → List Nibble → List Nibble → Node → Except TrieError (Bool × Node)}
    (hnext : ∀ n m pfx q, Rep S n m → n.isInner = true → Position m q → q.length < F →
      InsertResult S m q v (next n pfx q (.value v)))
    {n : Node} {m : Content} (hrep : Rep S n m) :
    ∀ pfx q, Position m q → q.length ≤ F → (n.isHash = true → q.length < F) →
      InsertResult S m q v (t.insertWith next n pfx q (.value v)) := by
  induction hrep with
  | nil =>
    intro pfx q hpos _ _
    cases q with
    | nil => exact insertWith_nil_rest t hv next Rep.nil hpos pfx
    | cons k ks =>
      left
      refine ⟨true, _, rfl, ?_, (fun h => by cases h)⟩
      rw [KeyMap.update_empty]
      exact Rep.short (List.cons_ne_nil k ks) (.inl ⟨hpos.of_cons.1, atEnd_leaf v⟩)
        (Rep.value hv) (KeyMap.splits_leaf v)
  | value hw =>
    intro pfx q hpos _ _
    cases q with
    | nil => exact insertWith_nil_rest t hv next (Rep.value hw) hpos pfx
    | cons k ks =>
      -- a value stands after the terminator, where no key is left
      exact absurd rfl (hpos.of_cons.2 [] (by simp)).ne_nil
  | @short key val f m hkey hshape hval hsplit ih =>
    intro pfx q hpos hlen _
    cases q with
    | nil => exact insertWith_nil_rest t hv next (Rep.short hkey hshape hval hsplit) hpos pfx
    | cons k ks =>
      have hq := hpos.of_cons.1
      by_cases hml : prefixLen (k :: ks) key = key.length
      · have hpre : key <+: k :: ks := by
          rw [← commonPrefixLen_eq_length_iff, commonPrefixLen_comm]
          exact hml
        obtain ⟨q', hq'⟩ := hpre
        have hlt : q'.length < (k :: ks).length := by
          rw [← hq', List.length_append]
          have := List.length_pos_of_ne_nil hkey
          omega
        rw [← hq'] at hq
        exact insertWith_short_match t next hkey hshape hval hsplit hq'.symm hq pfx
          (ih (pfx ++ key) q' (hshape.position hq) (by omega) (fun _ => by omega))
      · exact insertWith_short_diverge t hv next hshape hval hsplit hq hml pfx
  | @full cs f ms hcs hslot hsplit ih =>
    intro pfx q hpos hlen _
    cases q with
    | nil => exact insertWith_nil_rest t hv next (Rep.full hcs hslot hsplit) hpos pfx
    | cons k ks =>
      have hq := hpos.of_cons.1
      have hlen' : ks.length < F := by
        simp only [List.length_cons] at hlen
        omega
      exact insertWith_full t next hcs hslot hsplit hq pfx
        (ih k (pfx ++ [k]) ks ((hslot k).position hq) (Nat.le_of_lt hlen') (fun _ => hlen'))
  | @hash h enc m hS dec hdec hrep ih =>
    intro pfx q hpos _ hlt
    cases q with
    | nil => exact insertWith_nil_rest t hv next (Rep.hash hS dec hdec hrep) hpos pfx
    | cons k ks =>
      exact insertWith_hash t hD (Rep.hash hS dec hdec hrep) pfx
        fun n hn hinner => hnext n m pfx (k :: ks) hn hinner hpos (hlt rfl)

/-- The insertion with {lit}`F` levels, on a position no longer than {lit}`F` and
shorter at a hash node.  With no level left the node must be full or short, and a
position is never empty there. -/
theorem insert_spec (hD : DbAgrees S t.db) :
    ∀ (F : Nat) {n : Node} {m : Content}, Rep S n m → ∀ pfx q, Position m q → q.length ≤ F →
      (n.isHash = true → q.length < F) → (n.isInner = true ∨ 0 < F) →
      InsertResult S m q v (t.insert F n pfx q (.value v)) := by
  intro F
  induction F with
  | zero =>
    intro n m hrep pfx q hpos hlen _ hlevel
    rcases hlevel with hinner | hpos'
    · exact absurd (List.length_eq_zero_iff.mp (by omega))
        (hrep.query_ne_nil hinner hpos.compat)
    · omega
  | succ F ih =>
    intro n m hrep pfx q hpos hlen hlt _
    apply insertWith_spec t hv hD (F + 1) _ hrep pfx q hpos hlen hlt
    intro n' m' pfx' q' hrep' hinner' hpos' hlt'
    have hnh := Node.isHash_eq_false_of_isInner hinner'
    exact ih hrep' pfx' q' hpos' (by omega) (by simp [hnh]) (.inl hinner')

end Level

/-- {lit}`TryUpdate` with a non-empty value on a trie whose root stores {lit}`m` at
terminated paths: the new root stores {lit}`m` with the key set to the value, and
nothing else of the trie changes; or a node is missing. -/
theorem TryUpdate_insert_spec (hD : DbAgrees S t.db) {m : Content}
    (hrep : Rep S t.root m) (hterm : Terminal m) (key value : Bytes) (hv : value ≠ []) :
    (∃ n', t.TryUpdate key value = .ok { t with root := n' } ∧
      Rep S n' (Function.update m (keybytesToHex (t.keyPrefix ++ key)) (some value))) ∨
      ∃ e, t.TryUpdate key value = .error (.missing e) := by
  set k := keybytesToHex (t.keyPrefix ++ key) with hk
  have hpos : Position m k := .inl ⟨keybytesToHex_terminated _, hterm⟩
  rcases insert_spec t hv hD (Trie.levels k) hrep [] k hpos (by simp [Trie.levels])
      (fun _ => by simp [Trie.levels]) (.inr (by simp [Trie.levels])) with
    ⟨d, n', hr, hrep', -⟩ | ⟨e, hr⟩
  · left
    exact ⟨n', by simp only [Trie.TryUpdate, ← hk, if_pos hv, hr, Except.map], hrep'⟩
  · right
    exact ⟨e, by simp only [Trie.TryUpdate, ← hk, if_pos hv, hr, Except.map]⟩

end Mtp
end Uranus
