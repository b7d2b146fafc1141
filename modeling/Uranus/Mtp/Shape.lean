import Uranus.Mtp.Canonical

/-!
# Insertion and deletion keep the shape of a trie

The Go trie keeps its nodes in one shape: a full node has two non-nil children or
more, a short node has a non-empty key and leads to neither nil nor another short
node, a value sits exactly at the end of a path ending in the terminator, and the
terminator occurs nowhere else on a path.  {lean}`Shaped` states that shape for a node
and the path that leads to it, and reads a hash node through every node the trie's
database resolves it to.

Insertion keeps the shape because the full node it builds at a divergence gets the old
child, which is not nil, and the new value.  Deletion keeps it because a short node's
child is full where the key goes on, so deleting below it never leaves nil, and a full
node left with one child becomes a short node, merged with that child when it resolves
to a short node.  Both walks end in a node of the shape or stop at a missing node: with
the levels {lit}`TryUpdate` and {lit}`TryDelete` give them they neither panic nor run
out of levels.

The shape needs both conditions the Go comments rely on and do not state: a short node
leading to nil is split into a full node with one child, and a value slot holding a
short node is pulled up under another short node.

Main results:

- Theorems {lit}`insertWith_shaped` and {lit}`deleteWith_shaped`: one level of each walk
  keeps the shape.
- Theorem {lit}`insert_delete_keep_shape`: inserting or deleting a terminated key keeps
  the shape of the root.
- Theorem {lit}`shape_not_kept`: without those two conditions the shape is not kept.
-/

namespace Uranus
namespace Mtp

open Lib

/-! ## Non-nil children -/

/-- Two distinct non-nil children make two non-nil children. -/
theorem two_le_nonNilCount {cs : Fin 17 → Node} {a b : Fin 17} (hab : a ≠ b)
    (ha : (cs a).isNil = false) (hb : (cs b).isNil = false) : 2 ≤ Node.nonNilCount cs := by
  have hsub : [a, b].Subperm (nonNilIndices cs) := by
    apply List.Nodup.subperm (by simp [hab])
    intro i hi
    rw [mem_nonNilIndices]
    rcases List.mem_pair.mp hi with rfl | rfl
    · exact ha
    · exact hb
  exact hsub.length_le

/-- Replacing a child by a non-nil node keeps every non-nil child. -/
theorem nonNilCount_le_setChild {cs : Fin 17 → Node} {k : Fin 17} {nn : Node}
    (hnn : nn.isNil = false) : Node.nonNilCount cs ≤ Node.nonNilCount (setChild cs k nn) := by
  apply List.Subperm.length_le
  apply (nodup_nonNilIndices cs).subperm
  intro i hi
  rw [mem_nonNilIndices] at hi ⊢
  by_cases hik : i = k
  · subst hik
    simpa using hnn
  · simpa [hik] using hi

/-- Replacing a child loses at most that child. -/
theorem nonNilCount_le_setChild_succ (cs : Fin 17 → Node) (k : Fin 17) (nn : Node) :
    Node.nonNilCount cs ≤ Node.nonNilCount (setChild cs k nn) + 1 := by
  have hsub : (nonNilIndices cs).Subperm (k :: nonNilIndices (setChild cs k nn)) := by
    apply (nodup_nonNilIndices cs).subperm
    intro i hi
    by_cases hik : i = k
    · rw [hik]
      exact List.mem_cons_self
    · rw [mem_nonNilIndices] at hi
      exact List.mem_cons_of_mem _ ((mem_nonNilIndices _ i).mpr (by simpa [hik] using hi))
  simpa [Node.nonNilCount] using hsub.length_le

/-! ## The shape -/

namespace Trie

variable (t : Trie)

/-- What a short node may lead to: a node that is not nil and, also once a hash node
is resolved, not a short node. -/
def ShortVal (val : Node) : Prop :=
  val.isNil = false ∧ ∀ pfx key v f, t.resolve val pfx ≠ .ok (.short key v f)

/-- A node that is a full node, also once a hash node is resolved. -/
def Branches (n : Node) : Prop :=
  ∀ pfx rn, t.resolve n pfx = .ok rn → ∃ cs f, rn = .full cs f

end Trie

/-- {lit}`Shaped t p n`: the node {lit}`n` at the path {lit}`p` from the root, and every
node reachable from it through the database of {lit}`t`, have the shape of the trie.  A
value sits at a terminated path and every other node but nil at a path of nibbles; a
hash node resolves to nodes of the shape, and its blob always decodes. -/
inductive Shaped (t : Trie) : List Nibble → Node → Prop
  | nil {p : List Nibble} : Shaped t p .nil
  | value {p : List Nibble} {v : Bytes} (hp : Terminated p) : Shaped t p (.value v)
  | short {p key : List Nibble} {val : Node} {f : NodeFlag} (hp : IsNibbles p)
      (hkey : key ≠ []) (hval : t.ShortVal val) (hchild : Shaped t (p ++ key) val) :
      Shaped t p (.short key val f)
  | full {p : List Nibble} {cs : Fin 17 → Node} {f : NodeFlag} (hp : IsNibbles p)
      (htwo : 2 ≤ Node.nonNilCount cs) (hcs : ∀ i, Shaped t (p ++ [i]) (cs i)) :
      Shaped t p (.full cs f)
  | hash {p : List Nibble} {h : Hash} (hp : IsNibbles p)
      (hres : ∀ pfx n, t.resolveHash h pfx = .ok n → Shaped t p n)
      (hdec : ∀ pfx, t.resolveHash h pfx ≠ .error .panic) :
      Shaped t p (.hash h)

/-! ## Resolving -/

namespace Trie

variable (t : Trie)

/-- A hash node resolves to a short or a full node. -/
theorem resolveHash_isInner {h : Uranus.Hash} {pfx : List Nibble} {n : Node}
    (hr : t.resolveHash h pfx = .ok n) : n.isInner = true := by
  unfold resolveHash at hr
  split at hr
  · cases hr
  · split at hr
    · cases hr
    · split at hr
      · next node hdec =>
        cases hr
        exact decodeNode_isInner hdec
      · cases hr

/-- What a hash node loads does not depend on the path the error would report. -/
theorem resolveHash_ok_pfx {h : Uranus.Hash} {pfx : List Nibble} {n : Node}
    (hr : t.resolveHash h pfx = .ok n) (pfx' : List Nibble) : t.resolveHash h pfx' = .ok n := by
  unfold resolveHash at hr ⊢
  split at hr
  · cases hr
  · next enc _ =>
    by_cases he : enc = []
    · rw [if_pos he] at hr
      cases hr
    · rw [if_neg he] at hr ⊢
      exact hr

/-- Resolving fails with a missing node or with a blob that does not decode. -/
theorem resolveHash_error {h : Uranus.Hash} {pfx : List Nibble} {e : TrieError}
    (hr : t.resolveHash h pfx = .error e) : e = .panic ∨ ∃ m, e = .missing m := by
  unfold resolveHash at hr
  split at hr
  · cases hr
    exact .inr ⟨_, rfl⟩
  · split at hr
    · cases hr
      exact .inr ⟨_, rfl⟩
    · split at hr
      · cases hr
      · cases hr
        exact .inl rfl

/-- What a node resolves to does not depend on the path the error would report. -/
theorem resolve_ok_pfx {n rn : Node} {pfx : List Nibble} (hr : t.resolve n pfx = .ok rn)
    (pfx' : List Nibble) : t.resolve n pfx' = .ok rn := by
  cases n with
  | hash h => exact t.resolveHash_ok_pfx hr pfx'
  | _ => exact hr

/-- A value may be a short node's child. -/
theorem shortVal_value (v : Bytes) : t.ShortVal (.value v) :=
  ⟨rfl, fun _ _ _ _ h => by cases h⟩

/-- A full node may be a short node's child. -/
theorem shortVal_full (cs : Fin 17 → Node) (f : NodeFlag) : t.ShortVal (.full cs f) :=
  ⟨rfl, fun _ _ _ _ h => by cases h⟩

/-- A short node may not be a short node's child. -/
theorem not_shortVal_short {key : List Nibble} {val : Node} {f : NodeFlag} :
    ¬ t.ShortVal (.short key val f) :=
  fun h => h.2 [] key val f rfl

/-- A hash node a short node may lead to loads such a node. -/
theorem ShortVal.of_resolveHash {h : Uranus.Hash} {pfx : List Nibble} {rn : Node}
    (hv : t.ShortVal (.hash h)) (hr : t.resolveHash h pfx = .ok rn) : t.ShortVal rn := by
  have hinner := t.resolveHash_isInner hr
  refine ⟨Node.isNil_eq_false_of_isInner hinner, fun pfx' key v f hs => ?_⟩
  cases rn with
  | short key' v' f' => exact hv.2 pfx key' v' f' hr
  | hash _ => cases hinner
  | _ => cases hs

/-- A full node branches. -/
theorem branches_full (cs : Fin 17 → Node) (f : NodeFlag) : t.Branches (.full cs f) := by
  intro _ rn h
  cases h
  exact ⟨cs, f, rfl⟩

/-- A node that branches and is no hash node is a full node. -/
theorem Branches.eq_full {n : Node} (hb : t.Branches n) (hn : n.isHash = false) :
    ∃ cs f, n = .full cs f := by
  cases n with
  | hash h => cases hn
  | _ => exact hb [] _ rfl

/-- What a hash node that branches resolves to branches. -/
theorem Branches.of_resolveHash {h : Uranus.Hash} {pfx : List Nibble} {rn : Node}
    (hb : t.Branches (.hash h)) (hr : t.resolveHash h pfx = .ok rn) : t.Branches rn := by
  obtain ⟨cs, f, rfl⟩ := hb pfx rn hr
  exact t.branches_full cs f

end Trie

namespace Shaped

variable {t : Trie}

/-- A node other than nil sits at a path of nibbles or at a terminated one. -/
theorem isNibbles_or_terminated {p : List Nibble} {n : Node} (h : Shaped t p n)
    (hn : n.isNil = false) : IsNibbles p ∨ Terminated p := by
  cases h with
  | nil => cases hn
  | value hp => exact .inr hp
  | short hp => exact .inl hp
  | full hp => exact .inl hp
  | hash hp => exact .inl hp

/-- At a terminated path there is nil or a value. -/
theorem eq_value_of_terminated {p : List Nibble} {n : Node} (h : Shaped t p n)
    (hp : Terminated p) (hn : n.isNil = false) : ∃ v, n = .value v := by
  cases h with
  | nil => cases hn
  | value => exact ⟨_, rfl⟩
  | short hp' => exact absurd hp' hp.not_isNibbles
  | full hp' => exact absurd hp' hp.not_isNibbles
  | hash hp' => exact absurd hp' hp.not_isNibbles

/-- A full or short node sits at a path of nibbles, which a rest ending it in the
terminator cannot leave as it is. -/
theorem rest_ne_nil {p q : List Nibble} {n : Node} (h : Shaped t p n) (hinner : n.isInner = true)
    (hq : Terminated (p ++ q)) : q ≠ [] := by
  rintro rfl
  obtain ⟨w, rfl⟩ := h.eq_value_of_terminated (by simpa using hq)
    (Node.isNil_eq_false_of_isInner hinner)
  cases hinner

/-- A hash node of the shape loads a full or short node of the shape, or is missing. -/
theorem resolveHash {p : List Nibble} {h : Hash} (hs : Shaped t p (.hash h)) (pfx : List Nibble) :
    (∃ rn, t.resolveHash h pfx = .ok rn ∧ Shaped t p rn ∧ rn.isInner = true) ∨
      ∃ e, t.resolveHash h pfx = .error (.missing e) := by
  cases hs with
  | hash hp hres hdec =>
    cases hr : t.resolveHash h pfx with
    | ok rn => exact .inl ⟨rn, rfl, hres pfx rn hr, t.resolveHash_isInner hr⟩
    | error e =>
      rcases t.resolveHash_error hr with rfl | ⟨m, rfl⟩
      · exact absurd hr (hdec pfx)
      · exact .inr ⟨m, rfl⟩

/-- A node of the shape resolves to a node of the shape that is no hash node, or is
missing. -/
theorem resolve {p : List Nibble} {n : Node} (hs : Shaped t p n) (pfx : List Nibble) :
    (∃ rn, t.resolve n pfx = .ok rn ∧ Shaped t p rn ∧ rn.isHash = false) ∨
      ∃ e, t.resolve n pfx = .error (.missing e) := by
  cases n with
  | hash h =>
    rcases hs.resolveHash pfx with ⟨rn, hr, hrn, hinner⟩ | ⟨e, hr⟩
    · exact .inl ⟨rn, hr, hrn, Node.isHash_eq_false_of_isInner hinner⟩
    · exact .inr ⟨e, hr⟩
  | _ => exact .inl ⟨_, rfl, hs, rfl⟩

/-- A child a short node may lead to, at a path that the key goes on past, is full:
it is not nil, not short, and a value would end the path. -/
theorem branches {x : List Nibble} {val : Node} (hs : Shaped t x val) (hv : t.ShortVal val)
    (hx : ¬ Terminated x) : t.Branches val := by
  cases hs with
  | nil => cases hv.1
  | value hp => exact absurd hp hx
  | short => exact absurd hv t.not_shortVal_short
  | full => exact t.branches_full _ _
  | @hash _ h hp hres hdec =>
    intro pfx rn hr
    have hr' : t.resolveHash h pfx = .ok rn := hr
    have hinner := t.resolveHash_isInner hr'
    cases rn with
    | full cs f => exact ⟨cs, f, rfl⟩
    | short key v f => exact absurd hr (hv.2 pfx key v f)
    | _ => cases hinner

end Shaped

/-- A full node keeps its children's shapes when one child is replaced by a node of the
shape. -/
theorem shaped_setChild {t : Trie} {p : List Nibble} {cs : Fin 17 → Node}
    (hcs : ∀ i, Shaped t (p ++ [i]) (cs i)) {k : Nibble} {nn : Node}
    (hnn : Shaped t (p ++ [k]) nn) : ∀ i, Shaped t (p ++ [i]) (setChild cs k nn i) := by
  intro i
  by_cases hik : i = k
  · subst hik
    simpa using hnn
  · simpa [hik] using hcs i

/-- A path that goes on past a nibble, and is nibbles or terminated, has nibbles up to
that nibble. -/
theorem isNibbles_of_cons {x r : List Nibble} {a : Nibble}
    (h : IsNibbles (x ++ a :: r) ∨ Terminated (x ++ a :: r)) (hr : r ≠ []) :
    IsNibbles (x ++ [a]) := by
  have hsplit : x ++ a :: r = (x ++ [a]) ++ r := by simp
  rw [hsplit] at h
  rcases h with h | h
  · exact (isNibbles_append_iff.mp h).1
  · rcases terminated_append_split h with ⟨hr', -⟩ | ⟨hn, -⟩
    · exact absurd hr' hr
    · exact hn

/-! ## Insertion -/

/-- What an insertion into {lit}`n` at the path {lit}`p` may end in: a node of the shape at
that path, never nil, and one a short node may lead to where {lit}`n` was; or a missing
node. -/
def InsertShape (t : Trie) (p : List Nibble) (n : Node) (r : Except TrieError (Bool × Node)) :
    Prop :=
  (∃ d n', r = .ok (d, n') ∧ Shaped t p n' ∧ n'.isNil = false ∧ (t.ShortVal n → t.ShortVal n')) ∨
    ∃ e, r = .error (.missing e)

section Insert

variable (t : Trie) {v : Bytes}

/-- {lit}`insertNil` puts a node a short node may lead to under a key, at a path of
nibbles when the key is not empty. -/
theorem insertNil_shaped {x r : List Nibble} {val : Node} (hval : t.ShortVal val)
    (hs : Shaped t (x ++ r) val) (hx : r ≠ [] → IsNibbles x) :
    Shaped t x (t.insertNil r val) ∧ (t.insertNil r val).isNil = false := by
  unfold Trie.insertNil
  by_cases hr : r = []
  · subst hr
    rw [if_pos rfl]
    exact ⟨by simpa using hs, hval.1⟩
  · rw [if_neg hr]
    exact ⟨Shaped.short (hx hr) hr hval hs, rfl⟩

/-- The full node {lit}`branch` builds where a short node's key and the inserted key part:
the old child under the short node's nibble and the value under the key's, neither of
them nil. -/
theorem branch_shaped {x c rn rk : List Nibble} {a b : Nibble} (hab : b ≠ a) {val : Node}
    (hx : IsNibbles x) (hval : t.ShortVal val) (hvs : Shaped t (x ++ a :: rn) val)
    (hq : Terminated (x ++ b :: rk)) :
    Shaped t x (t.branch (c ++ a :: rn) val (c ++ b :: rk) (.value v) c.length a b) := by
  have hdrop : ∀ (y : Nibble) (r : List Nibble), (c ++ y :: r).drop (c.length + 1) = r := by
    intro y r
    simp
  have hA : Shaped t (x ++ [a]) (t.insertNil rn val) ∧ (t.insertNil rn val).isNil = false :=
    insertNil_shaped t hval (by simpa using hvs)
      (isNibbles_of_cons (hvs.isNibbles_or_terminated hval.1))
  have hB : Shaped t (x ++ [b]) (t.insertNil rk (.value v)) ∧
      (t.insertNil rk (.value v)).isNil = false :=
    insertNil_shaped t (t.shortVal_value v) (.value (by simpa using hq)) (isNibbles_of_cons (.inr hq))
  unfold Trie.branch
  rw [hdrop, hdrop]
  refine Shaped.full hx (two_le_nonNilCount hab (by simpa using hB.2)
    (by simpa [Ne.symm hab] using hA.2)) ?_
  intro i
  by_cases hib : i = b
  · subst hib
    simpa using hB.1
  · by_cases hia : i = a
    · subst hia
      simpa [hib] using hA.1
    · simpa [hib, hia, emptyChildren] using (Shaped.nil : Shaped t (x ++ [i]) .nil)

variable {next : Node → List Nibble → List Nibble → Node → Except TrieError (Bool × Node)}

/-- At the empty rest the node is replaced by the value, which ends the terminated
path. -/
theorem insertWith_nil_rest_shaped (n : Node) {p : List Nibble} (hp : Terminated p)
    (pfx : List Nibble) : InsertShape t p n (t.insertWith next n pfx [] (.value v)) := by
  have hval : ∃ d, t.insertWith next n pfx [] (.value v) = .ok (d, .value v) := by
    cases n <;> exact ⟨_, rfl⟩
  obtain ⟨d, hd⟩ := hval
  exact .inl ⟨d, _, hd, .value hp, rfl, fun _ => t.shortVal_value v⟩

/-- Into nil the value goes under a short node over the whole rest. -/
theorem insertWith_nil_shaped {p : List Nibble} {k : Nibble} {ks : List Nibble}
    (hq : Terminated (p ++ k :: ks)) (pfx : List Nibble) :
    InsertShape t p .nil (t.insertWith next .nil pfx (k :: ks) (.value v)) := by
  have hp : IsNibbles p := by
    rcases terminated_append_split hq with ⟨h, -⟩ | ⟨h, -⟩
    · cases h
    · exact h
  exact .inl ⟨true, _, rfl, .short hp (List.cons_ne_nil k ks) (t.shortVal_value v) (.value hq), rfl,
    fun h => by cases h.1⟩

/-- A short node whose whole key starts the rest passes the rest of the rest to its
child, and keeps a changed child under its key. -/
theorem insertWith_short_match_shaped {p nkey : List Nibble} {val : Node} {f : NodeFlag}
    (hp : IsNibbles p) (hkey : nkey ≠ []) (hval : t.ShortVal val) (hvs : Shaped t (p ++ nkey) val)
    {k : Nibble} {ks q : List Nibble} (hq : k :: ks = nkey ++ q) (pfx : List Nibble)
    (hchild : InsertShape t (p ++ nkey) val (t.insertWith next val (pfx ++ nkey) q (.value v))) :
    InsertShape t p (.short nkey val f)
      (t.insertWith next (.short nkey val f) pfx (k :: ks) (.value v)) := by
  have hml : prefixLen (k :: ks) nkey = nkey.length := by
    unfold prefixLen
    rw [commonPrefixLen_comm, commonPrefixLen_eq_length_iff, hq]
    exact List.prefix_append nkey q
  simp only [Trie.insertWith]
  rw [if_pos hml, hml, hq, List.take_left' rfl, List.drop_left' rfl]
  rcases hchild with ⟨d, nn, hr, hnn, -, hsv⟩ | ⟨e, hr⟩
  · rw [hr]
    cases d with
    | false =>
      exact .inl ⟨false, _, rfl, .short hp hkey hval hvs, rfl, fun h => absurd h t.not_shortVal_short⟩
    | true =>
      exact .inl ⟨true, _, rfl, .short hp hkey (hsv hval) hnn, rfl,
        fun h => absurd h t.not_shortVal_short⟩
  · rw [hr]
    exact .inr ⟨e, rfl⟩

/-- A short node whose key leaves the rest before its end is split: a full node at the
first nibble that differs, under a short node over the common part if there is one. -/
theorem insertWith_short_diverge_shaped {p nkey : List Nibble} {val : Node} {f : NodeFlag}
    (hp : IsNibbles p) (hval : t.ShortVal val) (hvs : Shaped t (p ++ nkey) val)
    {k : Nibble} {ks : List Nibble} (hq : Terminated (p ++ k :: ks))
    (hml : prefixLen (k :: ks) nkey ≠ nkey.length) (pfx : List Nibble) :
    InsertShape t p (.short nkey val f)
      (t.insertWith next (.short nkey val f) pfx (k :: ks) (.value v)) := by
  have hml₀ : commonPrefixLen (k :: ks) nkey ≠ nkey.length := hml
  have hle_n := commonPrefixLen_le_right (k :: ks) nkey
  have hle_q := commonPrefixLen_le_left (k :: ks) nkey
  have hlt_q : commonPrefixLen (k :: ks) nkey < (k :: ks).length := by
    -- a rest ending inside the key would end the path inside the short node's path
    by_contra hge
    have hpre : (k :: ks) <+: nkey := (commonPrefixLen_eq_length_iff _ _).mp (by omega)
    have hpre' : p ++ k :: ks <+: p ++ nkey := (List.prefix_append_right_inj p).mpr hpre
    rcases hvs.isNibbles_or_terminated hval.1 with hn | ht
    · exact hq.not_isNibbles fun y hy => hn y (hpre'.subset hy)
    · have hkn : k :: ks = nkey := List.append_cancel_left (Terminated.eq_of_prefix hq ht hpre')
      subst hkn
      omega
  obtain ⟨c, b, a, rk, rn, hqe, hne, hba, hc⟩ :=
    commonPrefixLen_split (k :: ks) nkey hlt_q (by omega)
  subst hne
  have hml' : prefixLen (k :: ks) (c ++ a :: rn) = c.length := hc.symm
  rw [hqe] at hq
  have hq' : Terminated ((p ++ c) ++ b :: rk) := by simpa using hq
  have hbr := branch_shaped t (v := v) (c := c) hba (Terminated.append_cons hq').1 hval
    (by simpa using hvs) hq'
  simp only [Trie.insertWith]
  rw [if_neg hml, hml', hqe]
  simp only [List.getElem?_append_right (Nat.le_refl _), Nat.sub_self,
    List.getElem?_cons_zero, List.take_left']
  by_cases hc0 : c = []
  · subst hc0
    exact .inl ⟨true, _, rfl, by simpa using hbr, rfl, fun h => absurd h t.not_shortVal_short⟩
  · have hlen0 : c.length ≠ 0 := by simpa using hc0
    exact .inl ⟨true, _, by rw [if_neg hlen0]; rfl, .short hp hc0 (t.shortVal_full _ _) hbr, rfl,
      fun h => absurd h t.not_shortVal_short⟩

/-- A full node passes the rest after the first nibble to that child; the new child is
not nil, so the node keeps its two children. -/
theorem insertWith_full_shaped {p : List Nibble} {cs : Fin 17 → Node} {f : NodeFlag}
    (hp : IsNibbles p) (htwo : 2 ≤ Node.nonNilCount cs) (hcs : ∀ i, Shaped t (p ++ [i]) (cs i))
    {k : Nibble} {ks : List Nibble} (pfx : List Nibble)
    (hchild : InsertShape t (p ++ [k]) (cs k) (t.insertWith next (cs k) (pfx ++ [k]) ks (.value v))) :
    InsertShape t p (.full cs f) (t.insertWith next (.full cs f) pfx (k :: ks) (.value v)) := by
  simp only [Trie.insertWith]
  rcases hchild with ⟨d, nn, hr, hnn, hnil, -⟩ | ⟨e, hr⟩
  · rw [hr]
    cases d with
    | false => exact .inl ⟨false, _, rfl, .full hp htwo hcs, rfl, fun _ => t.shortVal_full cs f⟩
    | true =>
      exact .inl ⟨true, _, rfl, .full hp (htwo.trans (nonNilCount_le_setChild hnil))
        (shaped_setChild hcs hnn), rfl, fun _ => t.shortVal_full _ _⟩
  · rw [hr]
    exact .inr ⟨e, rfl⟩

/-- A hash node is resolved and the loaded node handed to the next level. -/
theorem insertWith_hash_shaped {p : List Nibble} {h : Hash} (hs : Shaped t p (.hash h))
    {k : Nibble} {ks : List Nibble} (pfx : List Nibble)
    (hnext : ∀ n, Shaped t p n → n.isInner = true →
      InsertShape t p n (next n pfx (k :: ks) (.value v))) :
    InsertShape t p (.hash h) (t.insertWith next (.hash h) pfx (k :: ks) (.value v)) := by
  rcases hs.resolveHash pfx with ⟨rn, hres, hrn, hinner⟩ | ⟨e, hres⟩
  · rcases hnext rn hrn hinner with ⟨d, nn, hr, hnn, hnil, hsv⟩ | ⟨e, hr⟩
    · cases d with
      | false =>
        exact .inl ⟨false, rn, by simp only [Trie.insertWith, hres, hr], hrn,
          Node.isNil_eq_false_of_isInner hinner, fun hv => Trie.ShortVal.of_resolveHash t hv hres⟩
      | true =>
        exact .inl ⟨true, nn, by simp only [Trie.insertWith, hres, hr], hnn, hnil,
          fun hv => hsv (Trie.ShortVal.of_resolveHash t hv hres)⟩
    · exact .inr ⟨e, by simp only [Trie.insertWith, hres, hr]⟩
  · exact .inr ⟨e, by simp only [Trie.insertWith, hres]⟩

/-- One level of the insertion keeps the shape, for every rest that ends the path in
the terminator, no longer than {lit}`F` and shorter at a hash node, given a next level
that keeps it on the full and short nodes it is handed at shorter rests. -/
theorem insertWith_shaped (F : Nat)
    (hnext : ∀ n p pfx q, Shaped t p n → n.isInner = true → Terminated (p ++ q) →
      q.length < F → InsertShape t p n (next n pfx q (.value v)))
    {p : List Nibble} {n : Node} (hs : Shaped t p n) :
    ∀ pfx q, Terminated (p ++ q) → q.length ≤ F → (n.isHash = true → q.length < F) →
      InsertShape t p n (t.insertWith next n pfx q (.value v)) := by
  induction hs with
  | nil =>
    intro pfx q hq _ _
    cases q with
    | nil => exact insertWith_nil_rest_shaped t .nil (by simpa using hq) pfx
    | cons k ks => exact insertWith_nil_shaped t hq pfx
  | @value p w hp =>
    intro pfx q hq _ _
    cases q with
    | nil => exact insertWith_nil_rest_shaped t _ hp pfx
    | cons k ks =>
      -- a value ends a terminated path, so no key is left at it
      have hlen := congrArg List.length (Terminated.eq_of_prefix hp hq (List.prefix_append p _))
      simp at hlen
  | @short p nkey val f hp hkey hval hvs ih =>
    intro pfx q hq hlen _
    cases q with
    | nil => exact insertWith_nil_rest_shaped t _ (by simpa using hq) pfx
    | cons k ks =>
      by_cases hml : prefixLen (k :: ks) nkey = nkey.length
      · have hpre : nkey <+: k :: ks := by
          rw [← commonPrefixLen_eq_length_iff, commonPrefixLen_comm]
          exact hml
        obtain ⟨q', hq'⟩ := hpre
        have hlt : q'.length < (k :: ks).length := by
          rw [← hq', List.length_append]
          have := List.length_pos_of_ne_nil hkey
          omega
        have hterm : Terminated ((p ++ nkey) ++ q') := by
          rw [List.append_assoc, hq']
          exact hq
        exact insertWith_short_match_shaped t hp hkey hval hvs hq'.symm pfx
          (ih (pfx ++ nkey) q' hterm (by omega) (fun _ => by omega))
      · exact insertWith_short_diverge_shaped t hp hval hvs hq hml pfx
  | @full p cs f hp htwo hcs ih =>
    intro pfx q hq hlen _
    cases q with
    | nil => exact insertWith_nil_rest_shaped t _ (by simpa using hq) pfx
    | cons k ks =>
      have hlen' : ks.length < F := by
        simp only [List.length_cons] at hlen
        omega
      exact insertWith_full_shaped t hp htwo hcs pfx
        (ih k (pfx ++ [k]) ks (by simpa using hq) (Nat.le_of_lt hlen') (fun _ => hlen'))
  | @hash p h hp hres hdec ih =>
    intro pfx q hq _ hlt
    cases q with
    | nil => exact insertWith_nil_rest_shaped t _ (by simpa using hq) pfx
    | cons k ks =>
      exact insertWith_hash_shaped t (.hash hp hres hdec) pfx
        fun n hn hinner => hnext n p pfx (k :: ks) hn hinner hq (hlt rfl)

/-- The insertion with {lit}`F` levels keeps the shape.  With no level left the node is
full or short and sits at a path of nibbles, so a rest ending it in the terminator is
never empty there. -/
theorem insert_shaped :
    ∀ (F : Nat) {p : List Nibble} {n : Node}, Shaped t p n → ∀ pfx q, Terminated (p ++ q) →
      q.length ≤ F → (n.isHash = true → q.length < F) → (n.isInner = true ∨ 0 < F) →
      InsertShape t p n (t.insert F n pfx q (.value v)) := by
  intro F
  induction F with
  | zero =>
    intro p n hs pfx q hq hlen _ hlevel
    rcases hlevel with hinner | hpos
    · exact absurd (List.length_eq_zero_iff.mp (by omega)) (hs.rest_ne_nil hinner hq)
    · omega
  | succ F ih =>
    intro p n hs pfx q hq hlen hlt _
    apply insertWith_shaped t (F + 1) _ hs pfx q hq hlen hlt
    intro n' p' pfx' q' hs' hinner' hq' hlt'
    have hnh := Node.isHash_eq_false_of_isInner hinner'
    exact ih hs' pfx' q' hq' (by omega) (by simp [hnh]) (.inl hinner')

end Insert

/-! ## Deletion -/

/-- What a deletion from {lit}`n` at the path {lit}`p` may end in: a node of the shape at
that path that is no hash node, full or short where {lit}`n` was full; or a missing
node. -/
def DeleteShape (t : Trie) (p : List Nibble) (n : Node) (r : Except TrieError (Bool × Node)) :
    Prop :=
  (∃ d n', r = .ok (d, n') ∧ Shaped t p n' ∧ n'.isHash = false ∧
    (t.Branches n → n'.isInner = true)) ∨ ∃ e, r = .error (.missing e)

section Delete

variable (t : Trie)

/-- A short node over what a deletion left of its full child: merged with it when it is
a short node, kept over it when it is full. -/
theorem short_over_shaped {p nkey : List Nibble} (hp : IsNibbles p) (hkey : nkey ≠ [])
    {c : Node} (hc : Shaped t (p ++ nkey) c) (hinner : c.isInner = true) :
    (∀ ck cv f, c = .short ck cv f → Shaped t p (.short (nkey ++ ck) cv t.newFlag)) ∧
    ((∀ ck cv f, c ≠ .short ck cv f) → Shaped t p (.short nkey c t.newFlag)) := by
  constructor
  · rintro ck cv f rfl
    cases hc with
    | short _ _ hcv hcvs => exact .short hp (by simp [hkey]) hcv (by simpa using hcvs)
  · intro hshort
    cases c with
    | full cs f => exact .short hp hkey (t.shortVal_full cs f) hc
    | short ck cv f => exact absurd rfl (hshort ck cv f)
    | _ => cases hinner

/-- A full node left with one child becomes a short node over that child's nibble,
merged with the child when it resolves to a short node.  The value slot ends a
terminated path and holds a value. -/
theorem collapseChild_shaped {p : List Nibble} (hp : IsNibbles p) {cs : Fin 17 → Node}
    (hcs : ∀ i, Shaped t (p ++ [i]) (cs i)) {pos : Nibble} (hpos : (cs pos).isNil = false)
    (pfx : List Nibble) :
    (∃ n', t.collapseChild cs pos pfx = .ok n' ∧ Shaped t p n' ∧ n'.isInner = true) ∨
      ∃ e, t.collapseChild cs pos pfx = .error (.missing e) := by
  unfold Trie.collapseChild
  by_cases h16 : pos.val ≠ 16
  · rw [if_pos h16]
    rcases (hcs pos).resolve pfx with ⟨rn, hres, hrn, hnh⟩ | ⟨e, hres⟩
    · left
      rw [hres]
      cases rn with
      | short ck cv f =>
        cases hrn with
        | short _ _ hcv hcvs =>
          exact ⟨_, rfl, .short hp (List.cons_ne_nil _ _) hcv (by simpa using hcvs), rfl⟩
      | hash h => cases hnh
      | _ =>
        -- the child resolves to no short node, so a short node may lead to it
        have hsv : t.ShortVal (cs pos) := by
          refine ⟨hpos, fun pfx' key v f hs => ?_⟩
          have hs' := t.resolve_ok_pfx hs pfx
          rw [hres] at hs'
          cases hs'
        exact ⟨_, rfl, .short hp (List.cons_ne_nil _ _) hsv (hcs pos), rfl⟩
    · exact .inr ⟨e, by rw [hres]⟩
  · rw [if_neg h16]
    have hterm : Terminated (p ++ [pos]) := by
      have hpos16 : pos = 16 := Fin.ext (not_not.mp h16)
      rw [hpos16]
      exact Terminated.append hp terminated_singleton
    obtain ⟨w, hw⟩ := (hcs pos).eq_value_of_terminated hterm hpos
    have hsv : t.ShortVal (cs pos) := by
      rw [hw]
      exact t.shortVal_value w
    exact .inl ⟨_, rfl, .short hp (List.cons_ne_nil _ _) hsv (hcs pos), rfl⟩

variable {next : Node → List Nibble → List Nibble → Except TrieError (Bool × Node)}

/-- A short node: kept when its key does not start the rest, removed when the key is
the whole rest, else the rest of the rest is deleted from its child, which is full, and
the result put back under the key. -/
theorem deleteWith_short_shaped {p nkey : List Nibble} {val : Node} {f : NodeFlag}
    (hp : IsNibbles p) (hkey : nkey ≠ []) (hval : t.ShortVal val) (hvs : Shaped t (p ++ nkey) val)
    {q : List Nibble} (hq : Terminated (p ++ q)) (pfx : List Nibble)
    (hchild : ∀ q', q = nkey ++ q' → q' ≠ [] →
      DeleteShape t (p ++ nkey) val (t.deleteWith next val (pfx ++ nkey) q')) :
    DeleteShape t p (.short nkey val f) (t.deleteWith next (.short nkey val f) pfx q) := by
  have hle := commonPrefixLen_le_right q nkey
  simp only [Trie.deleteWith]
  by_cases h1 : prefixLen q nkey < nkey.length
  · rw [if_pos h1]
    exact .inl ⟨false, _, rfl, .short hp hkey hval hvs, rfl, fun _ => rfl⟩
  · rw [if_neg h1]
    have hpre : nkey <+: q := by
      rw [← commonPrefixLen_eq_length_iff, commonPrefixLen_comm]
      unfold prefixLen at h1
      omega
    obtain ⟨q', rfl⟩ := hpre
    have hml : prefixLen (nkey ++ q') nkey = nkey.length := by
      unfold prefixLen at h1 ⊢
      omega
    rw [hml]
    by_cases hq' : q' = []
    · subst hq'
      rw [if_pos (by simp)]
      exact .inl ⟨true, .nil, rfl, .nil, rfl, fun hb => by
        obtain ⟨_, _, h⟩ := Trie.Branches.eq_full t hb rfl
        cases h⟩
    · rw [if_neg (by simpa using hq'), List.take_left' rfl, List.drop_left' rfl]
      -- the key goes on past the short node's path, so the child is full
      have hnt : ¬ Terminated (p ++ nkey) := by
        intro ht
        have heq := Terminated.eq_of_prefix ht (by simpa using hq) (List.prefix_append (p ++ nkey) q')
        exact hq' (by simpa using heq)
      have hbr := hvs.branches hval hnt
      rcases hchild q' rfl hq' with ⟨d, nn, hr, hnn, hnh, hin⟩ | ⟨e, hr⟩
      · rw [hr]
        cases d with
        | false => exact .inl ⟨false, _, rfl, .short hp hkey hval hvs, rfl, fun _ => rfl⟩
        | true =>
          obtain ⟨hmerge, hkeep⟩ := short_over_shaped t hp hkey hnn (hin hbr)
          cases nn with
          | short ck cv f' => exact .inl ⟨true, _, rfl, hmerge ck cv f' rfl, rfl, fun _ => rfl⟩
          | full cs f' =>
            exact .inl ⟨true, _, rfl, hkeep (fun _ _ _ h => by cases h), rfl, fun _ => rfl⟩
          | nil => cases hin hbr
          | value w => cases hin hbr
          | hash h => cases hnh
      · rw [hr]
        exact .inr ⟨e, rfl⟩

/-- A full node deletes the rest after the first nibble from that child.  One child
changed, so one of its two non-nil children is left: with one left the node collapses
to a short node, with more it stays full. -/
theorem deleteWith_full_shaped {p : List Nibble} {cs : Fin 17 → Node} {f : NodeFlag}
    (hp : IsNibbles p) (htwo : 2 ≤ Node.nonNilCount cs) (hcs : ∀ i, Shaped t (p ++ [i]) (cs i))
    {k : Nibble} {ks : List Nibble} (pfx : List Nibble)
    (hchild : DeleteShape t (p ++ [k]) (cs k) (t.deleteWith next (cs k) (pfx ++ [k]) ks)) :
    DeleteShape t p (.full cs f) (t.deleteWith next (.full cs f) pfx (k :: ks)) := by
  simp only [Trie.deleteWith]
  rcases hchild with ⟨d, nn, hr, hnn, -, -⟩ | ⟨e, hr⟩
  · rw [hr]
    cases d with
    | false => exact .inl ⟨false, _, rfl, .full hp htwo hcs, rfl, fun _ => rfl⟩
    | true =>
      dsimp only
      have hcs' := shaped_setChild hcs hnn
      have hone : 1 ≤ Node.nonNilCount (setChild cs k nn) := by
        have := nonNilCount_le_setChild_succ cs k nn
        omega
      cases hl : nonNilIndices (setChild cs k nn) with
      | nil => simp [Node.nonNilCount, hl] at hone
      | cons a l =>
        cases l with
        | nil =>
          have ha : (setChild cs k nn a).isNil = false := (mem_nonNilIndices _ a).mp (by simp [hl])
          rcases collapseChild_shaped t hp hcs' ha pfx with ⟨n', hc, hn', hin⟩ | ⟨e, hc⟩
          · exact .inl ⟨true, n', by simp only [hc, Except.map], hn',
              Node.isHash_eq_false_of_isInner hin, fun _ => hin⟩
          · exact .inr ⟨e, by simp only [hc, Except.map]⟩
        | cons b l =>
          have htwo' : 2 ≤ Node.nonNilCount (setChild cs k nn) := by
            simp [Node.nonNilCount, hl]
          exact .inl ⟨true, _, rfl, .full hp htwo' hcs', rfl, fun _ => rfl⟩
  · rw [hr]
    exact .inr ⟨e, rfl⟩

/-- A hash node is resolved and the loaded node handed to the next level. -/
theorem deleteWith_hash_shaped {p : List Nibble} {h : Hash} (hs : Shaped t p (.hash h))
    {q : List Nibble} (pfx : List Nibble)
    (hnext : ∀ n, Shaped t p n → n.isInner = true → DeleteShape t p n (next n pfx q)) :
    DeleteShape t p (.hash h) (t.deleteWith next (.hash h) pfx q) := by
  rcases hs.resolveHash pfx with ⟨rn, hres, hrn, hinner⟩ | ⟨e, hres⟩
  · rcases hnext rn hrn hinner with ⟨d, nn, hr, hnn, hnh, hin⟩ | ⟨e, hr⟩
    · cases d with
      | false =>
        exact .inl ⟨false, rn, by simp only [Trie.deleteWith, hres, hr], hrn,
          Node.isHash_eq_false_of_isInner hinner, fun _ => hinner⟩
      | true =>
        exact .inl ⟨true, nn, by simp only [Trie.deleteWith, hres, hr], hnn, hnh,
          fun hb => hin (Trie.Branches.of_resolveHash t hb hres)⟩
    · exact .inr ⟨e, by simp only [Trie.deleteWith, hres, hr]⟩
  · exact .inr ⟨e, by simp only [Trie.deleteWith, hres]⟩

/-- One level of the deletion keeps the shape, for every rest that ends the path in the
terminator, no longer than {lit}`F` and shorter at a hash node, given a next level that
keeps it on the full and short nodes it is handed at shorter rests. -/
theorem deleteWith_shaped (F : Nat)
    (hnext : ∀ n p pfx q, Shaped t p n → n.isInner = true → Terminated (p ++ q) →
      q.length < F → DeleteShape t p n (next n pfx q))
    {p : List Nibble} {n : Node} (hs : Shaped t p n) :
    ∀ pfx q, Terminated (p ++ q) → q.length ≤ F → (n.isHash = true → q.length < F) →
      DeleteShape t p n (t.deleteWith next n pfx q) := by
  induction hs with
  | nil =>
    intro pfx q _ _ _
    exact .inl ⟨false, .nil, rfl, .nil, rfl, fun hb => by
      obtain ⟨_, _, h⟩ := Trie.Branches.eq_full t hb rfl
      cases h⟩
  | value hp =>
    intro pfx q _ _ _
    exact .inl ⟨true, .nil, rfl, .nil, rfl, fun hb => by
      obtain ⟨_, _, h⟩ := Trie.Branches.eq_full t hb rfl
      cases h⟩
  | @short p nkey val f hp hkey hval hvs ih =>
    intro pfx q hq hlen _
    apply deleteWith_short_shaped t hp hkey hval hvs hq pfx
    rintro q' rfl hq'
    have hlt : q'.length < (nkey ++ q').length := by
      have := List.length_pos_of_ne_nil hkey
      simp only [List.length_append]
      omega
    exact ih (pfx ++ nkey) q' (by simpa using hq) (by omega) (fun _ => by omega)
  | @full p cs f hp htwo hcs ih =>
    intro pfx q hq hlen _
    cases q with
    | nil =>
      -- a full node sits at a path of nibbles, which the terminator does not end
      exact absurd hp (by simpa using hq.not_isNibbles)
    | cons k ks =>
      have hlen' : ks.length < F := by
        simp only [List.length_cons] at hlen
        omega
      exact deleteWith_full_shaped t hp htwo hcs pfx
        (ih k (pfx ++ [k]) ks (by simpa using hq) (Nat.le_of_lt hlen') (fun _ => hlen'))
  | @hash p h hp hres hdec ih =>
    intro pfx q hq _ hlt
    exact deleteWith_hash_shaped t (.hash hp hres hdec) pfx
      fun n hn hinner => hnext n p pfx q hn hinner hq (hlt rfl)

/-- The deletion with {lit}`F` levels keeps the shape. -/
theorem delete_shaped :
    ∀ (F : Nat) {p : List Nibble} {n : Node}, Shaped t p n → ∀ pfx q, Terminated (p ++ q) →
      q.length ≤ F → (n.isHash = true → q.length < F) → (n.isInner = true ∨ 0 < F) →
      DeleteShape t p n (t.delete F n pfx q) := by
  intro F
  induction F with
  | zero =>
    intro p n hs pfx q hq hlen _ hlevel
    rcases hlevel with hinner | hpos
    · exact absurd (List.length_eq_zero_iff.mp (by omega)) (hs.rest_ne_nil hinner hq)
    · omega
  | succ F ih =>
    intro p n hs pfx q hq hlen hlt _
    apply deleteWith_shaped t (F + 1) _ hs pfx q hq hlen hlt
    intro n' p' pfx' q' hs' hinner' hq' hlt'
    have hnh := Node.isHash_eq_false_of_isInner hinner'
    exact ih hs' pfx' q' hq' (by omega) (by simp [hnh]) (.inl hinner')

end Delete

/-! ## The trie -/

/-- Inserting or deleting a terminated key keeps the shape of the root: the walk with
the levels {lit}`TryUpdate` and {lit}`TryDelete` give it ends in a new root of the
shape, or stops at a missing node. -/
theorem insert_delete_keep_shape (t : Trie) (hroot : Shaped t [] t.root) {q : List Nibble}
    (hq : Terminated q) (v : Bytes) :
    ((∃ d n', t.insert (Trie.levels q) t.root [] q (.value v) = .ok (d, n') ∧ Shaped t [] n') ∨
      ∃ e, t.insert (Trie.levels q) t.root [] q (.value v) = .error (.missing e)) ∧
    ((∃ d n', t.delete (Trie.levels q) t.root [] q = .ok (d, n') ∧ Shaped t [] n') ∨
      ∃ e, t.delete (Trie.levels q) t.root [] q = .error (.missing e)) := by
  have hq' : Terminated ([] ++ q) := by simpa using hq
  have hlen : q.length ≤ Trie.levels q := by simp [Trie.levels]
  have hlt : t.root.isHash = true → q.length < Trie.levels q := fun _ => by simp [Trie.levels]
  have hlevel : t.root.isInner = true ∨ 0 < Trie.levels q := .inr (by simp [Trie.levels])
  constructor
  · rcases insert_shaped t (v := v) (Trie.levels q) hroot [] q hq' hlen hlt hlevel with
      ⟨d, n', hr, hn', -⟩ | ⟨e, hr⟩
    · exact .inl ⟨d, n', hr, hn'⟩
    · exact .inr ⟨e, hr⟩
  · rcases delete_shaped t (Trie.levels q) hroot [] q hq' hlen hlt hlevel with
      ⟨d, n', hr, hn', -⟩ | ⟨e, hr⟩
    · exact .inl ⟨d, n', hr, hn'⟩
    · exact .inr ⟨e, hr⟩

/-- The hash under which the database of the example below holds a leaf. -/
def hashNine : Uranus.Hash := ⟨List.replicate 32 9, by decide⟩

/-- A full root whose child 1 is the hash of a leaf with the value 7, which the
database holds, and whose child 2 is a leaf with the value 5: the key of child 2,
updated and deleted.  Deleting it leaves child 1 alone in the full node; the walk
loads it from the database and merges it into a short node. -/
theorem insert_delete_keep_shape_hash :
    let t : Trie :=
      ⟨Database.NewDatabase (fun k => if k = hashNine.bytes then some [0xc2, 0x20, 0x07] else none),
        .full (fun i => if i = 1 then .hash hashNine
          else if i = 2 then .short [16] (.value [5]) ⟨none, 0, true⟩ else .nil) ⟨none, 0, true⟩,
        emptyRoot, [], 0, 0⟩
    Shaped t [] t.root ∧ Terminated [2, 16] ∧
      ((∃ d n', t.insert (Trie.levels [2, 16]) t.root [] [2, 16] (.value [9]) = .ok (d, n') ∧
          Shaped t [] n') ∨
        ∃ e, t.insert (Trie.levels [2, 16]) t.root [] [2, 16] (.value [9]) = .error (.missing e)) ∧
      ((∃ d n', t.delete (Trie.levels [2, 16]) t.root [] [2, 16] = .ok (d, n') ∧ Shaped t [] n') ∨
        ∃ e, t.delete (Trie.levels [2, 16]) t.root [] [2, 16] = .error (.missing e)) := by
  intro t
  -- the database decodes the blob under the hash to a leaf of the value 7
  have hleaf : ∀ pfx, t.resolveHash hashNine pfx =
      .ok (.short [16] (.value [7]) ⟨some hashNine, 0, false⟩) := fun _ => rfl
  have hroot : Shaped t [] t.root := by
    refine .full (by simp [IsNibbles]) (by decide) fun i => ?_
    by_cases h1 : i = 1
    · subst h1
      refine .hash (by simp [IsNibbles]) (fun pfx n hn => ?_) (fun pfx => by simp [hleaf])
      rw [hleaf, Except.ok.injEq] at hn
      subst hn
      exact .short (by simp [IsNibbles]) (by simp) (t.shortVal_value [7])
        (.value ⟨[1], rfl, by simp [IsNibbles]⟩)
    · by_cases h2 : i = 2
      · subst h2
        exact .short (by simp [IsNibbles]) (by simp) (t.shortVal_value [5])
          (.value ⟨[2], rfl, by simp [IsNibbles]⟩)
      · show Shaped t _ (if i = 1 then _ else if i = 2 then _ else .nil)
        rw [if_neg h1, if_neg h2]
        exact .nil
  have hq : Terminated [2, 16] := ⟨[2], rfl, by simp [IsNibbles]⟩
  exact ⟨hroot, hq, insert_delete_keep_shape t hroot hq [9]⟩
/-- The shape is not kept without the two conditions the Go comments rely on.  A root
{lit}`short [1] nil` has a non-empty key, leads to no short node and holds no value;
inserting the key {lit}`[2, 3, 16]` of the byte {lit}`0x23` puts nil under the nibble
{lit}`1`, and the full node built has one non-nil child.  A full root with
{lit}`short [0, 16]` in slot {lit}`0` and {lit}`short [16]` in the value slot has its values
at paths ending in the terminator; deleting the key {lit}`[0, 0, 16]` of the byte
{lit}`0x00` leaves the value slot alone, and the root becomes a short node leading to a
short node. -/
theorem shape_not_kept :
    let t : Trie := ⟨Database.NewDatabase (fun _ => none), .short [1] .nil ⟨none, 0, true⟩,
      emptyRoot, [], 0, 0⟩
    let cs : Fin 17 → Node := setChild (setChild emptyChildren 0 (.short [0, 16] (.value [4])
      ⟨none, 0, true⟩)) 16 (.short [16] (.value [5]) ⟨none, 0, true⟩)
    let t' : Trie := ⟨Database.NewDatabase (fun _ => none), .full cs ⟨none, 0, true⟩,
      emptyRoot, [], 0, 0⟩
    (∃ cs f, t.insert (Trie.levels [2, 3, 16]) t.root [] [2, 3, 16] (.value [7]) =
        .ok (true, .full cs f) ∧ Node.nonNilCount cs = 1) ∧
      ∃ f f', t'.delete (Trie.levels [0, 0, 16]) t'.root [] [0, 0, 16] =
        .ok (true, .short [16] (.short [16] (.value [5]) f) f') :=
  ⟨⟨_, _, rfl, by decide⟩, ⟨_, _, rfl⟩⟩

end Mtp
end Uranus
