import Uranus.Lib.KeyMap
import Uranus.Mtp.Trie

/-!
# Canonical tries and what they store

A node stores a map from nibble paths below it to values.  This module relates
nodes to those maps by {lit}`Rep`, which at the same time fixes the canonical
shape every trie the Go code builds has: short nodes have non-empty keys and a
child whose map splits at its first nibble (a value or a full node), full nodes
have at least two occupied children, values sit exactly where a key ends with
the terminator, and a hash node stands for a stored blob that decodes to a node
of the same map, whatever cache generation it is decoded at.

The blobs behind hash nodes are given by a relation {lit}`S` between hashes and
blobs.  A database agrees with it when, under a hash related to a blob, it
returns that blob or reads as missing.

Main results:

- Theorem {lit}`Rep.leaf_or_terminal`: a node stores a single value under the
  empty path, or only paths that end with the terminator.
- Theorem {lit}`resolveHash_spec`: resolving a hash node through an agreeing
  database gives a node of the same map, or a missing-node error.
-/

namespace Uranus
namespace Mtp

open Lib

/-- What a node stores: the values under the nibble paths below it. -/
abbrev Content := KeyMap Nibble Bytes

/-- The map of a node right after a terminator: at most the empty path. -/
def AtEnd (m : Content) : Prop := ∀ q, m q ≠ none → q = []

/-- The map of a node at a nibble position: every path ends with the terminator. -/
def Terminal (m : Content) : Prop := ∀ q, m q ≠ none → Terminated q

/-- A query path that no stored path properly extends or is a proper prefix of. -/
def Compat (m : Content) (q : List Nibble) : Prop :=
  ∀ r, m r ≠ none → (r <+: q ∨ q <+: r) → r = q

/-- The shape of a key over the map below it: a key ending with the terminator over
a map at the end, or a key of nibbles over a terminal map.  A short node's key and
child have it, and so has the nibble {lit}`[i]` over the map of a full node's
child {lit}`i`. -/
def ShortShape (key : List Nibble) (m : Content) : Prop :=
  (Terminated key ∧ AtEnd m) ∨ (IsNibbles key ∧ Terminal m)

/-- Where the rest {lit}`q` of a key may stand at a node storing {lit}`m`: at a
nibble position with a terminated rest, or after the terminator with nothing left. -/
def Position (m : Content) (q : List Nibble) : Prop :=
  (Terminated q ∧ Terminal m) ∨ (q = [] ∧ AtEnd m)

/-! ## Terminated paths -/

/-- A terminated path is not empty. -/
theorem Terminated.ne_nil {k : List Nibble} (h : Terminated k) : k ≠ [] := by
  obtain ⟨l, rfl, -⟩ := h
  simp

/-- The terminator alone is a terminated path. -/
theorem terminated_singleton : Terminated [16] := ⟨[], rfl, by simp [IsNibbles]⟩

/-- Nibbles in front of a terminated path keep it terminated. -/
theorem Terminated.append {p q : List Nibble} (hp : IsNibbles p) (hq : Terminated q) :
    Terminated (p ++ q) := by
  obtain ⟨l, rfl, hl⟩ := hq
  refine ⟨p ++ l, by simp, ?_⟩
  intro x hx
  rcases List.mem_append.mp hx with hx | hx
  · exact hp x hx
  · exact hl x hx

/-- A nibble in front of a terminated path keeps it terminated. -/
theorem Terminated.cons {i : Nibble} (hi : i ≠ 16) {q : List Nibble} (hq : Terminated q) :
    Terminated (i :: q) := by
  have hi' : IsNibbles [i] := by
    intro x hx
    rw [List.mem_singleton] at hx
    subst hx
    have := x.isLt
    have hne : x.val ≠ 16 := fun h => hi (Fin.ext h)
    omega
  exact Terminated.append hi' hq

/-- A path of nibbles is a first element other than the terminator before nibbles. -/
theorem isNibbles_cons_iff {i : Nibble} {l : List Nibble} :
    IsNibbles (i :: l) ↔ i ≠ 16 ∧ IsNibbles l := by
  constructor
  · intro h
    refine ⟨fun hi => ?_, fun x hx => h x (List.mem_cons_of_mem i hx)⟩
    have := h i List.mem_cons_self
    rw [hi] at this
    exact absurd this (by decide)
  · rintro ⟨hi, hl⟩ x hx
    rcases List.mem_cons.mp hx with rfl | hx
    · have := x.isLt
      have hne : x.val ≠ 16 := fun h => hi (Fin.ext h)
      omega
    · exact hl x hx

/-- Two paths joined are nibbles when both are. -/
theorem isNibbles_append_iff {p q : List Nibble} :
    IsNibbles (p ++ q) ↔ IsNibbles p ∧ IsNibbles q := by
  simp only [IsNibbles, List.mem_append]
  constructor
  · intro h
    exact ⟨fun x hx => h x (.inl hx), fun x hx => h x (.inr hx)⟩
  · rintro ⟨hp, hq⟩ x hx
    rcases hx with hx | hx
    · exact hp x hx
    · exact hq x hx

/-- A terminated path is the terminator alone or a nibble before a terminated path. -/
theorem terminated_cons_iff {k : Nibble} {ks : List Nibble} :
    Terminated (k :: ks) ↔ (k = 16 ∧ ks = []) ∨ (k ≠ 16 ∧ Terminated ks) := by
  constructor
  · rintro ⟨l, hl, hn⟩
    cases l with
    | nil =>
      simp only [List.nil_append, List.cons.injEq] at hl
      exact .inl hl
    | cons a l =>
      simp only [List.cons_append, List.cons.injEq] at hl
      obtain ⟨rfl, rfl⟩ := hl
      have hn' := isNibbles_cons_iff.mp hn
      exact .inr ⟨hn'.1, l, rfl, hn'.2⟩
  · rintro (⟨rfl, rfl⟩ | ⟨hk, hks⟩)
    · exact terminated_singleton
    · exact Terminated.cons hk hks

/-- Nibbles before a terminated path leave it terminated, and only then. -/
theorem terminated_append_iff {p q : List Nibble} (hp : IsNibbles p) :
    Terminated (p ++ q) ↔ Terminated q := by
  induction p with
  | nil => simp
  | cons a p ih =>
    have hp' := isNibbles_cons_iff.mp hp
    rw [List.cons_append, terminated_cons_iff, ih hp'.2]
    constructor
    · rintro (⟨ha, -⟩ | ⟨-, h⟩)
      · exact absurd ha hp'.1
      · exact h
    · exact fun h => .inr ⟨hp'.1, h⟩

/-- Where a terminated path goes on after a nibble {lit}`b`: the nibbles before are
no terminators, and {lit}`b` is the terminator exactly when nothing follows. -/
theorem Terminated.append_cons {c r : List Nibble} {b : Nibble} (h : Terminated (c ++ b :: r)) :
    IsNibbles c ∧ ((b = 16 ∧ r = []) ∨ (b ≠ 16 ∧ Terminated r)) := by
  induction c with
  | nil => exact ⟨by simp [IsNibbles], terminated_cons_iff.mp h⟩
  | cons a c ih =>
    rw [List.cons_append, terminated_cons_iff] at h
    rcases h with ⟨-, hnil⟩ | ⟨ha, h⟩
    · simp at hnil
    · obtain ⟨hc, hrest⟩ := ih h
      exact ⟨isNibbles_cons_iff.mpr ⟨ha, hc⟩, hrest⟩

/-- A terminated path is not made of nibbles only. -/
theorem Terminated.not_isNibbles {k : List Nibble} (h : Terminated k) : ¬ IsNibbles k := by
  obtain ⟨l, rfl, -⟩ := h
  intro hn
  have h16 := (isNibbles_append_iff.mp hn).2 16 List.mem_cons_self
  exact absurd h16 (by decide)

/-- The terminator ends a path: a terminated path is no proper prefix of another. -/
theorem Terminated.eq_of_prefix {a b : List Nibble} (ha : Terminated a) (hb : Terminated b)
    (hab : a <+: b) : a = b := by
  obtain ⟨c, rfl⟩ := hab
  rcases List.eq_nil_or_concat c with rfl | ⟨c, x, rfl⟩
  · simp
  · exfalso
    obtain ⟨l, rfl, -⟩ := ha
    obtain ⟨l', hl', hn⟩ := hb
    have hl'' : (l ++ 16 :: c) ++ [x] = l' ++ [16] := by simpa using hl'
    have hl : l ++ 16 :: c = l' := (List.append_inj' hl'' rfl).1
    have hmem : (16 : Nibble) ∈ l' := by
      rw [← hl]
      simp
    exact absurd (hn 16 hmem) (by decide)

/-- In a terminal map, no stored path properly extends or prefixes a terminated query. -/
theorem compat_of_terminal {m : Content} (hm : Terminal m) {q : List Nibble}
    (hq : Terminated q) : Compat m q := by
  intro r hr hcmp
  rcases hcmp with h | h
  · exact Terminated.eq_of_prefix (hm r hr) hq h
  · exact (Terminated.eq_of_prefix hq (hm r hr) h).symm

/-- A query compatible with a prefixed map is compatible, after the prefix, with the map. -/
theorem Compat.prefixed {key q : List Nibble} {m : Content}
    (h : Compat (KeyMap.prefixed key m) (key ++ q)) : Compat m q := by
  intro r hr hcmp
  have hr' : KeyMap.prefixed key m (key ++ r) ≠ none := by simpa using hr
  have hcmp' : key ++ r <+: key ++ q ∨ key ++ q <+: key ++ r := by simpa using hcmp
  exact List.append_cancel_left (h (key ++ r) hr' hcmp')

/-- A query compatible with a branch is compatible, after its first nibble, with that child's map. -/
theorem Compat.branch {ms : Fin 17 → Content} {i : Nibble} {q : List Nibble}
    (h : Compat (KeyMap.branch ms) (i :: q)) : Compat (ms i) q := by
  intro r hr hcmp
  have hcmp' : i :: r <+: i :: q ∨ i :: q <+: i :: r := by simpa using hcmp
  exact List.cons.inj (h (i :: r) hr hcmp') |>.2

/-! ## Shapes -/

/-- A terminated path cut in two: the terminator is the end of the first part, or
the first part is nibbles and the second is terminated. -/
theorem terminated_append_split {p r : List Nibble} (h : Terminated (p ++ r)) :
    (r = [] ∧ Terminated p) ∨ (IsNibbles p ∧ Terminated r) := by
  rcases List.eq_nil_or_concat r with rfl | ⟨r, x, rfl⟩
  · exact .inl ⟨rfl, by simpa using h⟩
  · right
    obtain ⟨l, hl, hn⟩ := h
    have hl' : (p ++ r) ++ [x] = l ++ [16] := by simpa using hl
    obtain ⟨hpl, hx⟩ := List.append_inj' hl' rfl
    rw [← hpl] at hn
    obtain ⟨hp, hr⟩ := isNibbles_append_iff.mp hn
    have hx16 : x = 16 := by simpa using hx
    exact ⟨hp, r, by simp [hx16], hr⟩

/-- The empty map is terminal. -/
theorem terminal_empty : Terminal KeyMap.empty := by
  intro q hq
  exact absurd rfl hq

/-- The empty map is at the end. -/
theorem atEnd_empty : AtEnd KeyMap.empty := by
  intro q hq
  exact absurd rfl hq

/-- A leaf is at the end. -/
theorem atEnd_leaf (v : Bytes) : AtEnd (KeyMap.leaf v) := by
  intro q hq
  cases q with
  | nil => rfl
  | cons a q => exact absurd rfl hq

/-- Removing a key, or setting the empty one, keeps a map at the end. -/
theorem AtEnd.update {m : Content} (h : AtEnd m) {q : List Nibble} {w : Option Bytes}
    (hq : w = none ∨ q = []) : AtEnd (Function.update m q w) := by
  intro r hr
  by_cases hrq : r = q
  · subst hrq
    rcases hq with rfl | rfl
    · simp at hr
    · rfl
  · rw [Function.update_of_ne hrq] at hr
    exact h r hr

/-- Removing a key, or setting a terminated one, keeps a map terminal. -/
theorem Terminal.update {m : Content} (h : Terminal m) {q : List Nibble} {w : Option Bytes}
    (hq : w = none ∨ Terminated q) : Terminal (Function.update m q w) := by
  intro r hr
  by_cases hrq : r = q
  · subst hrq
    rcases hq with rfl | hq
    · simp at hr
    · exact hq
  · rw [Function.update_of_ne hrq] at hr
    exact h r hr

/-- The map under a short node's key is terminal when the key and the map have the
shape of a short node. -/
theorem terminal_prefixed {key : List Nibble} {m : Content} (hshape : ShortShape key m) :
    Terminal (KeyMap.prefixed key m) := by
  intro q hq
  by_cases hp : key <+: q
  · obtain ⟨r, rfl⟩ := hp
    have hr : m r ≠ none := by simpa using hq
    rcases hshape with ⟨hterm, hend⟩ | ⟨hnib, hterm⟩
    · rw [hend r hr, List.append_nil]
      exact hterm
    · exact Terminated.append hnib (hterm r hr)
  · exact absurd (KeyMap.prefixed_apply_eq_none hp m) hq

/-- A branch whose children have the shape of full-node children is terminal. -/
theorem terminal_branch {ms : Fin 17 → Content} (h : ∀ i, ShortShape [i] (ms i)) :
    Terminal (KeyMap.branch ms) := by
  intro q hq
  cases q with
  | nil => exact absurd rfl hq
  | cons i r =>
    have hr : KeyMap.prefixed [i] (ms i) ([i] ++ r) ≠ none := by
      rw [KeyMap.prefixed_apply_append]
      exact hq
    exact terminal_prefixed (h i) _ hr

/-- Any terminated key or key of nibbles has the shape over the empty map. -/
theorem shortShape_empty (key : List Nibble) (hkey : Terminated key ∨ IsNibbles key) :
    ShortShape key KeyMap.empty := by
  rcases hkey with hkey | hkey
  · exact .inl ⟨hkey, atEnd_empty⟩
  · exact .inr ⟨hkey, terminal_empty⟩

/-- Every nibble has a shape over the empty map, as the children of a fresh full
node need. -/
theorem shortShape_singleton_empty (i : Nibble) : ShortShape [i] KeyMap.empty := by
  apply shortShape_empty
  by_cases hi : i = 16
  · subst hi
    exact .inl terminated_singleton
  · exact .inr (isNibbles_cons_iff.mpr ⟨hi, by simp [IsNibbles]⟩)

/-- An update at the rest of a terminated key keeps the shape. -/
theorem ShortShape.update {key q : List Nibble} {m : Content} (h : ShortShape key m)
    (hq : Terminated (key ++ q)) (w : Option Bytes) : ShortShape key (Function.update m q w) := by
  rcases h with ⟨hk, he⟩ | ⟨hn, ht⟩
  · have hq0 : key = key ++ q := Terminated.eq_of_prefix hk hq (List.prefix_append key q)
    exact .inl ⟨hk, he.update (.inr (by simpa using hq0))⟩
  · exact .inr ⟨hn, ht.update (.inr ((terminated_append_iff hn).mp hq))⟩

/-- The rest of a terminated key below a key of this shape stands at a position of
the map. -/
theorem ShortShape.position {key q : List Nibble} {m : Content} (h : ShortShape key m)
    (hq : Terminated (key ++ q)) : Position m q := by
  rcases h with ⟨hk, he⟩ | ⟨hn, ht⟩
  · have hq0 : key = key ++ q := Terminated.eq_of_prefix hk hq (List.prefix_append key q)
    exact .inr ⟨by simpa using hq0, he⟩
  · exact .inl ⟨(terminated_append_iff hn).mp hq, ht⟩

/-- Dropping the front of a key keeps its shape. -/
theorem ShortShape.drop_left {c p : List Nibble} {m : Content} (h : ShortShape (c ++ p) m)
    (hp : p ≠ []) : ShortShape p m := by
  rcases h with ⟨hk, he⟩ | ⟨hn, ht⟩
  · rcases terminated_append_split hk with ⟨hp0, -⟩ | ⟨-, hp'⟩
    · exact absurd hp0 hp
    · exact .inl ⟨hp', he⟩
  · exact .inr ⟨(isNibbles_append_iff.mp hn).2, ht⟩

/-- The front of a key, over the map moved under the back. -/
theorem ShortShape.append {p r : List Nibble} {m : Content} (h : ShortShape (p ++ r) m) :
    ShortShape p (KeyMap.prefixed r m) := by
  rcases h with ⟨hk, he⟩ | ⟨hn, ht⟩
  · rcases terminated_append_split hk with ⟨rfl, hp⟩ | ⟨hp, hr⟩
    · exact .inl ⟨hp, by simpa using he⟩
    · exact .inr ⟨hp, terminal_prefixed (.inl ⟨hr, he⟩)⟩
  · obtain ⟨hp, hr⟩ := isNibbles_append_iff.mp hn
    exact .inr ⟨hp, terminal_prefixed (.inr ⟨hr, ht⟩)⟩

/-- Before a non-empty back, the front of a key is nibbles. -/
theorem ShortShape.isNibbles_left {c r : List Nibble} {m : Content} (h : ShortShape (c ++ r) m)
    (hr : r ≠ []) : IsNibbles c := by
  rcases h with ⟨hk, -⟩ | ⟨hn, -⟩
  · rcases terminated_append_split hk with ⟨hr0, -⟩ | ⟨hc, -⟩
    · exact absurd hr0 hr
    · exact hc
  · exact (isNibbles_append_iff.mp hn).1

/-- Nibbles before a key of this shape keep the shape. -/
theorem ShortShape.join {p r : List Nibble} {m : Content} (hp : IsNibbles p)
    (h : ShortShape r m) : ShortShape (p ++ r) m := by
  rcases h with ⟨hr, he⟩ | ⟨hr, ht⟩
  · exact .inl ⟨Terminated.append hp hr, he⟩
  · exact .inr ⟨isNibbles_append_iff.mpr ⟨hp, hr⟩, ht⟩

/-- A one-element path is terminated only when it is the terminator. -/
theorem terminated_singleton_iff {i : Nibble} : Terminated [i] ↔ i = 16 := by
  rw [terminated_cons_iff]
  constructor
  · rintro (⟨h, -⟩ | ⟨-, h⟩)
    · exact h
    · exact absurd rfl h.ne_nil
  · exact fun h => .inl ⟨h, rfl⟩

/-- A one-element path is a nibble unless it is the terminator. -/
theorem isNibbles_singleton_iff {i : Nibble} : IsNibbles [i] ↔ i ≠ 16 := by
  rw [isNibbles_cons_iff]
  constructor
  · exact fun h => h.1
  · exact fun h => ⟨h, by simp [IsNibbles]⟩

/-- The shape of a full node's child: at the end in the value slot, terminal in a
nibble slot. -/
theorem shortShape_singleton_iff {i : Nibble} {m : Content} :
    ShortShape [i] m ↔ (i = 16 ∧ AtEnd m) ∨ (i ≠ 16 ∧ Terminal m) := by
  unfold ShortShape
  rw [terminated_singleton_iff, isNibbles_singleton_iff]

/-- A map keeps its children's shapes when one child is replaced by a map of the
right shape. -/
theorem shortShape_update_slots {ms : Fin 17 → Content} (h : ∀ i, ShortShape [i] (ms i))
    {k : Nibble} {mk : Content} (hk : ShortShape [k] mk) :
    ∀ i, ShortShape [i] (Function.update ms k mk i) := by
  intro i
  by_cases hik : i = k
  · subst hik
    simpa using hk
  · simpa [Function.update_of_ne hik] using h i

/-- A rest at its position is compatible with the stored map. -/
theorem Position.compat {m : Content} {q : List Nibble} (h : Position m q) : Compat m q := by
  rcases h with ⟨hq, hm⟩ | ⟨rfl, he⟩
  · exact compat_of_terminal hm hq
  · intro r hr _
    exact he r hr

/-- A non-empty rest is terminated and the map terminal. -/
theorem Position.of_cons {m : Content} {k : Nibble} {ks : List Nibble}
    (h : Position m (k :: ks)) : Terminated (k :: ks) ∧ Terminal m := by
  rcases h with h | ⟨hnil, -⟩
  · exact h
  · cases hnil

/-- At the empty rest the map is at the end. -/
theorem Position.atEnd_of_nil {m : Content} (h : Position m []) : AtEnd m := by
  rcases h with ⟨hq, -⟩ | ⟨-, he⟩
  · exact absurd rfl hq.ne_nil
  · exact he

/-- A non-empty rest is terminated. -/
theorem Position.terminated {m : Content} {q : List Nibble} (h : Position m q) (hq : q ≠ []) :
    Terminated q := by
  rcases h with ⟨h, -⟩ | ⟨hnil, -⟩
  · exact h
  · exact absurd hnil hq

/-- Removing the empty key of a map at the end leaves nothing. -/
theorem AtEnd.update_nil_none {m : Content} (h : AtEnd m) :
    Function.update m [] none = KeyMap.empty := by
  funext r
  by_cases hr : r = []
  · subst hr
    simp
  · rw [Function.update_of_ne hr, KeyMap.empty_apply]
    by_contra hne
    exact hr (h r hne)

/-- Setting the empty key of a map at the end leaves a leaf. -/
theorem AtEnd.update_nil {m : Content} (h : AtEnd m) (v : Bytes) :
    Function.update m [] (some v) = KeyMap.leaf v := by
  funext r
  cases r with
  | nil => simp
  | cons a r =>
    have hr : m (a :: r) = none := by
      by_contra hne
      cases h (a :: r) hne
    rw [Function.update_of_ne (List.cons_ne_nil a r), hr, KeyMap.leaf_cons]

/-! ## Canonical representation -/

section Rep

variable (S : Hash → Bytes → Prop)

/-- {lit}`Rep S n m`: the node {lit}`n` is in canonical shape and stores the map
{lit}`m`, hash nodes standing for the blobs {lit}`S` relates them to. -/
inductive Rep : Node → Content → Prop
  | nil : Rep .nil KeyMap.empty
  | value {v : Bytes} (hv : v ≠ []) : Rep (.value v) (KeyMap.leaf v)
  | short {key : List Nibble} {val : Node} {f : NodeFlag} {m : Content}
      (hkey : key ≠ [])
      (hshape : ShortShape key m) (hval : Rep val m) (hsplit : KeyMap.Splits m) :
      Rep (.short key val f) (KeyMap.prefixed key m)
  | full {cs : Fin 17 → Node} {f : NodeFlag} {ms : Fin 17 → Content}
      (hcs : ∀ i, Rep (cs i) (ms i)) (hslot : ∀ i, ShortShape [i] (ms i))
      (hsplit : KeyMap.Splits (KeyMap.branch ms)) :
      Rep (.full cs f) (KeyMap.branch ms)
  | hash {h : Hash} {enc : Bytes} {m : Content} (hS : S h enc) (dec : UInt16 → Node)
      (hdec : ∀ g, decodeNode (some h) enc g = .ok (dec g)) (hrep : ∀ g, Rep (dec g) m) :
      Rep (.hash h) m

/-- Under a hash related to a blob, a database returns that blob, the empty blob or
nothing; the last two read as a missing node. -/
def DbAgrees (db : Database) : Prop :=
  ∀ h enc enc', S h enc → db.Node h = some enc' → enc' ≠ [] → enc' = enc

end Rep

variable {S : Hash → Bytes → Prop}

/-- A node stores one value under the empty path, or only terminated paths. -/
theorem Rep.leaf_or_terminal {n : Node} {m : Content} (h : Rep S n m) :
    (∃ v, n = .value v ∧ m = KeyMap.leaf v) ∨ Terminal m := by
  induction h with
  | nil => exact .inr terminal_empty
  | value hv => exact .inl ⟨_, rfl, rfl⟩
  | short hkey hshape hval hsplit ih => exact .inr (terminal_prefixed hshape)
  | full hcs hslot hsplit ih => exact .inr (terminal_branch hslot)
  | @hash h enc m hS dec hdec hrep ih =>
    rcases ih 0 with ⟨v, hv, -⟩ | hterm
    · have hinner := decodeNode_isInner (hdec 0)
      rw [hv] at hinner
      cases hinner
    · exact .inr hterm

/-- Every node but nil stores something. -/
theorem Rep.occupied {n : Node} {m : Content} (h : Rep S n m) (hn : n.isNil = false) :
    KeyMap.Occupied m := by
  induction h with
  | nil => cases hn
  | value hv => exact ⟨[], by simp⟩
  | short hkey hshape hval hsplit ih =>
    exact (KeyMap.occupied_prefixed_iff _ _).mpr hsplit.occupied
  | full hcs hslot hsplit ih => exact hsplit.occupied
  | @hash h enc m hS dec hdec hrep ih =>
    apply ih 0
    exact Node.isNil_eq_false_of_isInner (decodeNode_isInner (hdec 0))

/-- A full node's map splits. -/
theorem Rep.splits_of_full {cs : Fin 17 → Node} {f : NodeFlag} {m : Content}
    (h : Rep S (.full cs f) m) : KeyMap.Splits m := by
  cases h with
  | full hcs hslot hsplit => exact hsplit

/-- Exactly the nodes other than nil store something. -/
theorem Rep.isNil_eq_false_iff {n : Node} {m : Content} (h : Rep S n m) :
    n.isNil = false ↔ KeyMap.Occupied m := by
  constructor
  · exact h.occupied
  · intro hocc
    cases n with
    | nil =>
      cases h
      obtain ⟨q, hq⟩ := hocc
      exact absurd rfl hq
    | _ => rfl

/-- A node storing something only under the empty path stores a split map: it is a
value. -/
theorem Rep.splits_of_atEnd {n : Node} {m : Content} (h : Rep S n m) (hend : AtEnd m)
    (hocc : KeyMap.Occupied m) : KeyMap.Splits m := by
  rcases h.leaf_or_terminal with ⟨v, -, rfl⟩ | hterm
  · exact KeyMap.splits_leaf v
  · obtain ⟨q, hq⟩ := hocc
    have hq0 := hend q hq
    subst hq0
    exact absurd rfl (hterm [] hq).ne_nil

/-- A value or a full node that stores something stores a split map. -/
theorem Rep.splits_of_not_short {n : Node} {m : Content} (h : Rep S n m)
    (hshort : ∀ key val f, n ≠ .short key val f) (hhash : n.isHash = false)
    (hocc : KeyMap.Occupied m) : KeyMap.Splits m := by
  cases h with
  | nil =>
    obtain ⟨q, hq⟩ := hocc
    exact absurd rfl hq
  | value hv => exact KeyMap.splits_leaf _
  | short hkey hshape hval hsplit => exact absurd rfl (hshort _ _ _)
  | full hcs hslot hsplit => exact hsplit
  | hash hS dec hdec hrep => cases hhash

/-- A value stores itself under the empty path. -/
theorem Rep.value_content {v : Bytes} {m : Content} (h : Rep S (.value v) m) :
    m = KeyMap.leaf v := by
  cases h
  rfl

/-- A node storing a terminal map is no value. -/
theorem Rep.ne_value_of_terminal {n : Node} {m : Content} (h : Rep S n m) (hterm : Terminal m)
    (v : Bytes) : n ≠ .value v := by
  rintro rfl
  have hleaf := h.value_content
  subst hleaf
  exact (hterm [] (by simp)).ne_nil rfl

/-- A node storing a map at the end is nil or a non-empty value. -/
theorem Rep.nil_or_value_of_atEnd {n : Node} {m : Content} (h : Rep S n m) (hend : AtEnd m) :
    n = .nil ∨ ∃ v, n = .value v ∧ v ≠ [] := by
  cases hn : n.isNil with
  | true =>
    left
    cases n <;> simp_all [Node.isNil]
  | false =>
    right
    obtain ⟨q, hq⟩ := h.occupied hn
    rcases h.leaf_or_terminal with ⟨v, rfl, -⟩ | hterm
    · cases h with
      | value hv => exact ⟨v, rfl, hv⟩
    · have hq0 := hend q hq
      subst hq0
      exact absurd rfl (hterm [] hq).ne_nil

/-- Nil stores nothing. -/
theorem Rep.nil_content {m : Content} (h : Rep S .nil m) : m = KeyMap.empty := by
  cases h
  rfl

/-- A full or short node stores no value under the empty path, so a compatible
query is never empty there. -/
theorem Rep.query_ne_nil {n : Node} {m : Content} (h : Rep S n m) (hinner : n.isInner = true)
    {q : List Nibble} (hq : Compat m q) : q ≠ [] := by
  rintro rfl
  have hnil := Node.isNil_eq_false_of_isInner hinner
  obtain ⟨r, hr⟩ := h.occupied hnil
  have hr0 : r = [] := hq r hr (.inr List.nil_prefix)
  subst hr0
  rcases h.leaf_or_terminal with ⟨v, rfl, -⟩ | hterm
  · cases hinner
  · exact (hterm [] hr).ne_nil rfl

/-! ## Resolving hash nodes -/

/-- Resolving a hash node through a database that agrees with the blob
relation gives a decoded node storing the same map, unless the blob is missing. -/
theorem resolveHash_spec (t : Trie) (hD : DbAgrees S t.db)
    {h : Hash} {m : Content} (hrep : Rep S (.hash h) m) (pfx : List Nibble) :
    (∃ n, t.resolveHash h pfx = .ok n ∧ Rep S n m ∧ n.isInner = true) ∨
      ∃ e, t.resolveHash h pfx = .error (.missing e) := by
  cases hrep with
  | hash hS dec hdec hrep =>
    unfold Trie.resolveHash
    cases hn : t.db.Node h with
    | none => exact .inr ⟨⟨h, pfx⟩, rfl⟩
    | some enc' =>
      by_cases he : enc' = []
      · exact .inr ⟨⟨h, pfx⟩, by simp [he]⟩
      · have henc := hD h _ _ hS hn he
        subst henc
        left
        refine ⟨dec t.cachegen, ?_, hrep t.cachegen, decodeNode_isInner (hdec t.cachegen)⟩
        simp [he, hdec t.cachegen]

/-- {lit}`resolve` gives a node of the same map that is no hash node, the node itself
unless it was one; or a missing-node error. -/
theorem resolve_spec (t : Trie) (hD : DbAgrees S t.db) {n : Node}
    {m : Content} (hrep : Rep S n m) (pfx : List Nibble) :
    (∃ n₀, t.resolve n pfx = .ok n₀ ∧ Rep S n₀ m ∧ n₀.isHash = false ∧
      (n.isHash = false → n₀ = n)) ∨ ∃ e, t.resolve n pfx = .error (.missing e) := by
  cases n with
  | hash h =>
    rcases resolveHash_spec t hD hrep pfx with ⟨n₀, hres, hrep₀, hinner⟩ | ⟨e, hres⟩
    · have hnh := Node.isHash_eq_false_of_isInner hinner
      exact .inl ⟨n₀, hres, hrep₀, hnh, nofun⟩
    · exact .inr ⟨e, hres⟩
  | nil => exact .inl ⟨_, rfl, hrep, rfl, fun _ => rfl⟩
  | value v => exact .inl ⟨_, rfl, hrep, rfl, fun _ => rfl⟩
  | short key val f => exact .inl ⟨_, rfl, hrep, rfl, fun _ => rfl⟩
  | full cs f => exact .inl ⟨_, rfl, hrep, rfl, fun _ => rfl⟩

end Mtp
end Uranus
