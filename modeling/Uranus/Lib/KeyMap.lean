import Mathlib

/-!
# Maps keyed by lists

A radix trie stores a finite map whose keys are lists.  Its nodes take the map
apart along the keys: a leaf holds the value of the empty key, an extension
node holds a map under a common key prefix, and a branch node holds one map per
first element.  This module defines those three ways of building a map, how an
update at one key goes through each of them, and when a map splits at its first
element, which is what makes a trie's shape unique.

Main results:

- Theorems {lit}`update_prefixed_append` and {lit}`update_branch_cons`: an update
  goes under a prefix or a branch to the map that holds the key.
- Theorem {lit}`update_prefixed_diverge`: an update at a key that leaves an
  extension before its end turns it into an extension to a branch.
- Theorem {lit}`splits_branch_iff`: a branch splits when two of its maps are
  occupied.
- Theorem {lit}`prefixed_inj`: an extension of a splitting map determines its
  prefix and the map.
-/

namespace Uranus
namespace Lib

/-- A map keyed by lists of {lit}`α`. -/
abbrev KeyMap (α β : Type*) := List α → Option β

namespace KeyMap

variable {α β : Type*}

/-- The map with no keys. -/
def empty : KeyMap α β := fun _ => none

/-- The map holding one value under the empty key. -/
def leaf (v : β) : KeyMap α β
  | [] => some v
  | _ :: _ => none

/-- The map with one map under each first element and nothing under the empty key. -/
def branch (ms : α → KeyMap α β) : KeyMap α β
  | [] => none
  | a :: q => ms a q

/-- A map with at least one key. -/
def Occupied (m : KeyMap α β) : Prop := ∃ q, m q ≠ none

/-- A map with keys and no first element shared by all of them: the map of a
leaf or of a branch with two occupied maps, and never of an extension. -/
def Splits (m : KeyMap α β) : Prop := Occupied m ∧ ∀ a, ∃ q, m q ≠ none ∧ q.head? ≠ some a

/-! ## Reading -/

/-- The empty map has no key. -/
@[simp]
theorem empty_apply (q : List α) : (empty : KeyMap α β) q = none := rfl

/-- A leaf holds its value at the empty key. -/
@[simp]
theorem leaf_nil (v : β) : (leaf v : KeyMap α β) [] = some v := rfl

/-- A leaf holds nothing below the empty key. -/
@[simp]
theorem leaf_cons (v : β) (a : α) (q : List α) : (leaf v : KeyMap α β) (a :: q) = none := rfl

/-- A branch holds nothing at the empty key. -/
@[simp]
theorem branch_nil (ms : α → KeyMap α β) : branch ms [] = none := rfl

/-- A branch reads a key below the child its first element picks. -/
@[simp]
theorem branch_cons (ms : α → KeyMap α β) (a : α) (q : List α) :
    branch ms (a :: q) = ms a q := rfl

/-- A branch holds a value exactly under a first element followed by a key of that
element's map. -/
theorem branch_eq_some_iff {ms : α → KeyMap α β} {q : List α} {v : β} :
    branch ms q = some v ↔ ∃ a r, q = a :: r ∧ ms a r = some v := by
  cases q with
  | nil => simp
  | cons a r => simp

variable [DecidableEq α]

/-- A map moved under a key prefix. -/
def prefixed (p : List α) (m : KeyMap α β) : KeyMap α β :=
  fun q => if p <+: q then m (q.drop p.length) else none

/-- A prefixed map reads the original after the prefix. -/
@[simp]
theorem prefixed_apply_append (p q : List α) (m : KeyMap α β) :
    prefixed p m (p ++ q) = m q := by
  simp [prefixed]

/-- A prefixed map holds nothing off its prefix. -/
theorem prefixed_apply_eq_none {p q : List α} (h : ¬ p <+: q) (m : KeyMap α β) :
    prefixed p m q = none := by
  simp [prefixed, h]

/-- A prefixed map holds a value exactly under the prefix followed by a key of the
original. -/
theorem prefixed_eq_some_iff {p q : List α} {m : KeyMap α β} {v : β} :
    prefixed p m q = some v ↔ ∃ r, q = p ++ r ∧ m r = some v := by
  constructor
  · intro h
    by_cases hp : p <+: q
    · obtain ⟨r, rfl⟩ := hp
      exact ⟨r, rfl, by rwa [prefixed_apply_append] at h⟩
    · rw [prefixed_apply_eq_none hp] at h
      cases h
  · rintro ⟨r, rfl, hr⟩
    rwa [prefixed_apply_append]

/-- The empty prefix changes nothing. -/
@[simp]
theorem prefixed_nil (m : KeyMap α β) : prefixed [] m = m := by
  funext q
  simp [prefixed]

/-- Prefixing twice is prefixing by the concatenation. -/
theorem prefixed_append (p p' : List α) (m : KeyMap α β) :
    prefixed (p ++ p') m = prefixed p (prefixed p' m) := by
  funext q
  by_cases hp : p <+: q
  · obtain ⟨r, rfl⟩ := hp
    simp [prefixed]
  · have hpp : ¬ p ++ p' <+: q := fun h => hp ((List.prefix_append p p').trans h)
    rw [prefixed_apply_eq_none hpp, prefixed_apply_eq_none hp]

/-- An extension by one element is a branch with one occupied map. -/
theorem prefixed_cons (a : α) (p : List α) (m : KeyMap α β) :
    prefixed (a :: p) m = branch (Function.update (fun _ => empty) a (prefixed p m)) := by
  funext q
  cases q with
  | nil => simp [prefixed]
  | cons b q =>
    by_cases hb : b = a
    · subst hb
      simp [prefixed]
    · simp [prefixed, hb, Ne.symm hb]

/-- The empty map stays empty under any prefix. -/
@[simp]
theorem prefixed_empty (p : List α) : prefixed p (empty : KeyMap α β) = empty := by
  funext q
  by_cases hp : p <+: q
  · simp [prefixed, hp]
  · exact prefixed_apply_eq_none hp empty

/-- A branch with a single occupied map is an extension by that map's element. -/
theorem branch_eq_prefixed_single (ms : α → KeyMap α β) (a : α) (h : ∀ b, b ≠ a → ms b = empty) :
    branch ms = prefixed [a] (ms a) := by
  rw [prefixed_cons, prefixed_nil]
  congr 1
  funext b
  by_cases hb : b = a
  · subst hb
    simp
  · rw [Function.update_of_ne hb, h b hb]

/-! ## Updates -/

/-- Writing the empty key of a leaf replaces its value. -/
@[simp]
theorem update_leaf_nil (v : β) (w : Option β) :
    Function.update (leaf v : KeyMap α β) [] w =
      match w with
      | some w => leaf w
      | none => empty := by
  funext q
  cases q with
  | nil => cases w <;> simp
  | cons a q => cases w <;> simp

/-- Writing one key of the empty map gives a leaf under that key. -/
theorem update_empty (q : List α) (v : β) :
    Function.update (empty : KeyMap α β) q (some v) = prefixed q (leaf v) := by
  funext r
  by_cases hr : r = q
  · subst hr
    simpa using (prefixed_apply_append r [] (leaf v)).symm
  · rw [Function.update_of_ne hr]
    by_cases hp : q <+: r
    · obtain ⟨s, rfl⟩ := hp
      cases s with
      | nil => exact absurd (List.append_nil q) hr
      | cons a s => simp
    · rw [prefixed_apply_eq_none hp]
      rfl

/-- An update under a prefix is an update of the map moved there. -/
theorem update_prefixed_append (p q : List α) (m : KeyMap α β) (v : Option β) :
    Function.update (prefixed p m) (p ++ q) v = prefixed p (Function.update m q v) := by
  funext r
  by_cases hp : p <+: r
  · obtain ⟨s, rfl⟩ := hp
    by_cases hs : s = q
    · subst hs
      simp
    · have hne : p ++ s ≠ p ++ q := fun h => hs (List.append_cancel_left h)
      rw [Function.update_of_ne hne]
      simp [Function.update_of_ne hs]
  · have hne : r ≠ p ++ q := by
      rintro rfl
      exact hp (List.prefix_append p q)
    rw [Function.update_of_ne hne, prefixed_apply_eq_none hp,
      prefixed_apply_eq_none hp]

/-- An update in a branch is an update of the map under the key's first element. -/
theorem update_branch_cons (ms : α → KeyMap α β) (a : α) (q : List α) (v : Option β) :
    Function.update (branch ms) (a :: q) v =
      branch (Function.update ms a (Function.update (ms a) q v)) := by
  funext r
  cases r with
  | nil => simp
  | cons b r =>
    by_cases hb : b = a
    · subst hb
      by_cases hr : r = q
      · subst hr
        simp
      · have hne : b :: r ≠ b :: q := by simpa using hr
        rw [Function.update_of_ne hne]
        simp [Function.update_of_ne hr]
    · have hne : b :: r ≠ a :: q := by simp [hb]
      rw [Function.update_of_ne hne]
      simp [Function.update_of_ne hb]

/-- An update that leaves an extension before its end: the common part stays an
extension, and a branch at the first difference holds the rest of the extension
and the new key. -/
theorem update_prefixed_diverge (c r r' : List α) {a b : α} (hab : a ≠ b) (m : KeyMap α β)
    (v : β) :
    Function.update (prefixed (c ++ b :: r') m) (c ++ a :: r) (some v) =
      prefixed c (branch (Function.update (Function.update (fun _ => empty) b (prefixed r' m)) a
        (prefixed r (leaf v)))) := by
  rw [prefixed_append, update_prefixed_append, prefixed_cons, update_branch_cons,
    Function.update_of_ne hab, update_empty]

/-! ## Occupied and splitting maps -/

/-- A prefix neither adds nor removes keys. -/
theorem occupied_prefixed_iff (p : List α) (m : KeyMap α β) :
    Occupied (prefixed p m) ↔ Occupied m := by
  constructor
  · rintro ⟨q, hq⟩
    by_cases hp : p <+: q
    · exact ⟨q.drop p.length, by simpa [prefixed, hp] using hq⟩
    · exact absurd (prefixed_apply_eq_none hp m) hq
  · rintro ⟨q, hq⟩
    exact ⟨p ++ q, by simpa using hq⟩

omit [DecidableEq α] in
/-- A branch has keys when one of its maps has. -/
theorem occupied_branch_iff (ms : α → KeyMap α β) :
    Occupied (branch ms) ↔ ∃ a, Occupied (ms a) := by
  constructor
  · rintro ⟨q, hq⟩
    cases q with
    | nil => exact absurd rfl hq
    | cons a q => exact ⟨a, q, hq⟩
  · rintro ⟨a, q, hq⟩
    exact ⟨a :: q, hq⟩

omit [DecidableEq α] in
/-- A map that splits has keys. -/
theorem Splits.occupied {m : KeyMap α β} (h : Splits m) : Occupied m := h.1

omit [DecidableEq α] in
/-- A map without keys is the empty map. -/
theorem eq_empty_of_not_occupied {m : KeyMap α β} (h : ¬ Occupied m) : m = empty := by
  funext q
  by_contra hq
  exact h ⟨q, hq⟩

/-- A splitting map keeps a key after any change under a non-empty key: one of its
keys starts with another element. -/
theorem Splits.occupied_update_cons {m : KeyMap α β} (h : Splits m) (a : α) (q : List α)
    (w : Option β) : Occupied (Function.update m (a :: q) w) := by
  obtain ⟨r, hr, hhead⟩ := h.2 a
  have hne : r ≠ a :: q := by
    rintro rfl
    exact hhead rfl
  exact ⟨r, by rwa [Function.update_of_ne hne]⟩

omit [DecidableEq α] in
/-- A leaf splits: its one key is empty. -/
theorem splits_leaf (v : β) : Splits (leaf v : KeyMap α β) :=
  ⟨⟨[], by simp⟩, fun _ => ⟨[], by simp, by simp⟩⟩

/-- Every key of an extension starts with its first element. -/
theorem not_splits_prefixed_cons (a : α) (p : List α) (m : KeyMap α β) :
    ¬ Splits (prefixed (a :: p) m) := by
  rintro ⟨-, h⟩
  obtain ⟨q, hq, hhead⟩ := h a
  by_cases hp : a :: p <+: q
  · obtain ⟨s, rfl⟩ := hp
    exact hhead rfl
  · exact hq (prefixed_apply_eq_none hp m)

/-- A branch splits exactly when two of its maps have keys. -/
theorem splits_branch_iff (ms : α → KeyMap α β) :
    Splits (branch ms) ↔ ∃ a b, a ≠ b ∧ Occupied (ms a) ∧ Occupied (ms b) := by
  constructor
  · rintro ⟨⟨q, hq⟩, h⟩
    cases q with
    | nil => exact absurd rfl hq
    | cons a q =>
      obtain ⟨r, hr, hhead⟩ := h a
      cases r with
      | nil => exact absurd rfl hr
      | cons b r =>
        have hba : b ≠ a := fun hba => hhead (by simp [hba])
        exact ⟨a, b, Ne.symm hba, ⟨q, hq⟩, ⟨r, hr⟩⟩
  · rintro ⟨a, b, hab, ⟨q, hq⟩, ⟨r, hr⟩⟩
    refine ⟨⟨a :: q, hq⟩, fun c => ?_⟩
    by_cases hc : c = a
    · subst hc
      exact ⟨b :: r, hr, by simpa using Ne.symm hab⟩
    · exact ⟨a :: q, hq, by simpa using Ne.symm hc⟩

/-- Adding a key keeps a map splitting. -/
theorem Splits.update_some {m : KeyMap α β} (h : Splits m) (q : List α) (v : β) :
    Splits (Function.update m q (some v)) := by
  have hdef : ∀ r, m r ≠ none → Function.update m q (some v) r ≠ none := by
    intro r hr
    by_cases hrq : r = q
    · subst hrq
      simp
    · rwa [Function.update_of_ne hrq]
  obtain ⟨⟨r, hr⟩, hall⟩ := h
  refine ⟨⟨r, hdef r hr⟩, fun a => ?_⟩
  obtain ⟨s, hs, hhead⟩ := hall a
  exact ⟨s, hdef s hs, hhead⟩

/-! ## Unique decomposition

A map is built in at most one way from a leaf, an extension of a splitting map and a
branch.  This is what makes a trie's shape, and so its hash, a function of its map.
-/

omit [DecidableEq α] in
/-- Two leaves are equal only with equal values. -/
theorem leaf_injective {v w : β} (h : (leaf v : KeyMap α β) = leaf w) : v = w := by
  simpa using congrFun h []

omit [DecidableEq α] in
/-- A branch is given by its maps. -/
theorem branch_injective {ms ms' : α → KeyMap α β} (h : branch ms = branch ms') : ms = ms' := by
  funext a q
  exact congrFun h (a :: q)

omit [DecidableEq α] in
/-- A leaf is no branch: it holds the empty key. -/
theorem leaf_ne_branch (v : β) (ms : α → KeyMap α β) : leaf v ≠ branch ms := by
  intro h
  simpa using congrFun h []

/-- A leaf is no map under a non-empty prefix. -/
theorem leaf_ne_prefixed_cons (v : β) (a : α) (p : List α) (m : KeyMap α β) :
    leaf v ≠ prefixed (a :: p) m := by
  intro h
  have h0 := congrFun h []
  rw [leaf_nil, prefixed_apply_eq_none (by simp)] at h0
  cases h0

/-- An extension by a fixed prefix is given by the map it extends. -/
theorem prefixed_injective {p : List α} {m m' : KeyMap α β} (h : prefixed p m = prefixed p m') :
    m = m' := by
  funext q
  simpa using congrFun h (p ++ q)

/-- A non-empty extension of any map is no splitting branch. -/
theorem prefixed_cons_ne_branch (a : α) (p : List α) (m : KeyMap α β) {ms : α → KeyMap α β}
    (hs : Splits (branch ms)) : prefixed (a :: p) m ≠ branch ms :=
  fun h => not_splits_prefixed_cons a p m (h ▸ hs)

/-- Two extensions of maps with keys have comparable prefixes: both prefix the
spelling of one key. -/
theorem prefix_or_prefix_of_prefixed_eq {p₁ p₂ : List α} {m₁ m₂ : KeyMap α β}
    (hocc : Occupied m₁) (h : prefixed p₁ m₁ = prefixed p₂ m₂) : p₁ <+: p₂ ∨ p₂ <+: p₁ := by
  obtain ⟨q, hq⟩ := hocc
  have h₂ : prefixed p₂ m₂ (p₁ ++ q) ≠ none := by
    rw [← h, prefixed_apply_append]
    exact hq
  have hp₂ : p₂ <+: p₁ ++ q := by
    by_contra hp
    exact h₂ (prefixed_apply_eq_none hp m₂)
  exact List.prefix_or_prefix_of_prefix (List.prefix_append p₁ q) hp₂

/-- The shorter of two equal extensions of splitting maps is not shorter. -/
theorem prefixed_eq_of_prefix {p₁ p₂ : List α} {m₁ m₂ : KeyMap α β} (h₁ : Splits m₁)
    (hp : p₁ <+: p₂) (h : prefixed p₁ m₁ = prefixed p₂ m₂) : p₁ = p₂ ∧ m₁ = m₂ := by
  obtain ⟨s, rfl⟩ := hp
  rw [prefixed_append] at h
  have hm := prefixed_injective h
  cases s with
  | nil => exact ⟨by simp, by simpa using hm⟩
  | cons a s => exact absurd (hm ▸ h₁) (not_splits_prefixed_cons a s m₂)

/-- An extension of a splitting map determines its prefix and the map. -/
theorem prefixed_inj {p₁ p₂ : List α} {m₁ m₂ : KeyMap α β} (h₁ : Splits m₁) (h₂ : Splits m₂)
    (h : prefixed p₁ m₁ = prefixed p₂ m₂) : p₁ = p₂ ∧ m₁ = m₂ := by
  rcases prefix_or_prefix_of_prefixed_eq h₁.occupied h with hp | hp
  · exact prefixed_eq_of_prefix h₁ hp h
  · obtain ⟨hp', hm⟩ := prefixed_eq_of_prefix h₂ hp h.symm
    exact ⟨hp'.symm, hm.symm⟩

end KeyMap

end Lib
end Uranus
