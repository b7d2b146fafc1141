import Uranus.Mtp.Canonical

/-!
# Lookup returns the stored value (`Trie.TryGet`)

A lookup in a canonical trie returns the value its map holds under the key, or
stops with a missing-node error when a hash node cannot be read from the
database.  The walk descends one level of {lit}`tryGetWith` per hash node it
resolves; a canonical trie resolves hash nodes at ever shorter rests of the key,
so the levels {lit}`TryGet` grants are enough and the walk never runs out of
fuel or panics.

Main results:

- Theorem {lit}`tryGetWith_spec`: one level of the walk, given that the next level
  is correct on shorter rests.
- Theorem {lit}`tryGet_spec`: the walk with enough levels.
- Theorem {lit}`TryGet_spec`: {lit}`TryGet` on a trie whose root stores {lit}`m`.
-/

namespace Uranus
namespace Mtp

open Lib

/-- What a lookup under the rest {lit}`q` may end in: the value stored there, or a
missing node. -/
def LookupResult (m : Content) (q : List Nibble)
    (r : Except TrieError (Option Bytes × Node × Bool)) : Prop :=
  (∃ n' b, r = .ok (m q, n', b)) ∨ ∃ e, r = .error (.missing e)

variable {S : Hash → Bytes → Prop} (t : Trie)

/-- A missing node is an allowed outcome of any lookup. -/
theorem LookupResult.missing {m : Content} {q : List Nibble} (e : MissingNodeError) :
    LookupResult m q (.error (.missing e)) := .inr ⟨e, rfl⟩

/-- A short node whose key is not a prefix of the rest holds nothing there. -/
theorem not_prefix_of_tryGet_miss {key rest : List Nibble}
    (h : rest.length < key.length ∨ key ≠ rest.take key.length) : ¬ key <+: rest := by
  intro hp
  rcases h with h | h
  · exact absurd hp.length_le (by omega)
  · exact h (List.prefix_iff_eq_take.mp hp)

/-- A key that is a prefix of the rest splits it. -/
theorem eq_append_of_tryGet_hit {key rest : List Nibble}
    (h : ¬ (rest.length < key.length ∨ key ≠ rest.take key.length)) :
    rest = key ++ rest.drop key.length := by
  rw [not_or, not_not] at h
  conv_lhs => rw [← List.take_append_drop key.length rest]
  rw [← h.2]

/-- One level of the lookup: correct on every rest no longer than {lit}`F`, and
shorter than {lit}`F` at a hash node, given a next level that is correct on the
full and short nodes it is handed at rests shorter than {lit}`F`. -/
theorem tryGetWith_spec (hD : DbAgrees S t.db) (F : Nat)
    {next : Node → List Nibble → List Nibble → Except TrieError (Option Bytes × Node × Bool)}
    (hnext : ∀ n m pfx q, Rep S n m → n.isInner = true → Compat m q → q.length < F →
      LookupResult m q (next n pfx q))
    {n : Node} {m : Content} (hrep : Rep S n m) :
    ∀ pfx q, Compat m q → q.length ≤ F → (n.isHash = true → q.length < F) →
      LookupResult m q (t.tryGetWith next n pfx q) := by
  induction hrep with
  | nil =>
    intro pfx q _ _ _
    exact .inl ⟨.nil, false, rfl⟩
  | @value v hv =>
    intro pfx q hq _ _
    -- the compatible rest at a value is empty
    have hq0 : [] = q := hq [] (by simp) (.inl List.nil_prefix)
    subst hq0
    exact .inl ⟨.value v, false, rfl⟩
  | @short key val f m' hkey hshape hval hsplit ih =>
    intro pfx q hq hlen _
    by_cases hmiss : q.length < key.length ∨ key ≠ q.take key.length
    · have hnone : KeyMap.prefixed key m' q = none :=
        KeyMap.prefixed_apply_eq_none (not_prefix_of_tryGet_miss hmiss) m'
      left
      refine ⟨.short key val f, false, ?_⟩
      simp only [Trie.tryGetWith, hmiss, ↓reduceIte, hnone]
    · have hsplitq := eq_append_of_tryGet_hit hmiss
      have hq' : Compat m' (q.drop key.length) := by
        rw [hsplitq] at hq
        exact hq.prefixed
      have hlen' : (q.drop key.length).length < q.length := by
        have := List.length_pos_of_ne_nil hkey
        simp only [List.length_drop]
        have : key.length ≤ q.length := by
          by_contra hc
          exact hmiss (.inl (by omega))
        omega
      have hval' := ih (pfx ++ key) (q.drop key.length) hq' (by omega) (fun _ => by omega)
      have hvalue : KeyMap.prefixed key m' q = m' (q.drop key.length) := by
        conv_lhs => rw [hsplitq]
        exact KeyMap.prefixed_apply_append _ _ _
      rcases hval' with ⟨nn, b, hr⟩ | ⟨e, hr⟩
      · left
        cases b with
        | true =>
          refine ⟨.short key nn { f with gen := t.cachegen }, true, ?_⟩
          simp only [Trie.tryGetWith, hmiss, ↓reduceIte, hr, hvalue]
        | false =>
          refine ⟨.short key val f, false, ?_⟩
          simp only [Trie.tryGetWith, hmiss, ↓reduceIte, hr, hvalue]
          rfl
      · exact .inr ⟨e, by simp only [Trie.tryGetWith, hmiss, ↓reduceIte, hr]⟩
  | @full cs f ms hcs hslot hsplit ih =>
    intro pfx q hq hlen _
    cases q with
    | nil =>
      exact absurd rfl ((Rep.full (S := S) (f := f) hcs hslot hsplit).query_ne_nil rfl hq)
    | cons i q =>
      have hval' := ih i (pfx ++ [i]) q hq.branch (by simp at hlen; omega)
        (fun _ => by simp at hlen; omega)
      rcases hval' with ⟨nn, b, hr⟩ | ⟨e, hr⟩
      · left
        cases b with
        | true =>
          refine ⟨.full (setChild cs i nn) { f with gen := t.cachegen }, true, ?_⟩
          simp only [Trie.tryGetWith, hr, KeyMap.branch_cons]
          rfl
        | false =>
          refine ⟨.full cs f, false, ?_⟩
          simp only [Trie.tryGetWith, hr, KeyMap.branch_cons]
          rfl
      · exact .inr ⟨e, by simp only [Trie.tryGetWith, hr]⟩
  | @hash h enc m hS dec hdec hrep ih =>
    intro pfx q hq _ hlt
    have hlt' := hlt rfl
    rcases resolveHash_spec t hD (Rep.hash hS dec hdec hrep) pfx with
      ⟨n₀, hres, hrep₀, hinner⟩ | ⟨e, hres⟩
    · -- the resolved node goes to the next level with the same rest
      rcases hnext n₀ m pfx q hrep₀ hinner hq hlt' with ⟨nn, b, hr⟩ | ⟨e, hr⟩
      · exact .inl ⟨nn, true, by simp only [Trie.tryGetWith, hres, hr]⟩
      · exact .inr ⟨e, by simp only [Trie.tryGetWith, hres, hr]⟩
    · exact .inr ⟨e, by simp only [Trie.tryGetWith, hres]⟩

/-- The lookup with {lit}`F` levels, on a rest no longer than {lit}`F` and shorter
at a hash node.  With no level left the node must be full or short, and a
compatible rest is never empty there. -/
theorem tryGet_spec (hD : DbAgrees S t.db) :
    ∀ (F : Nat) {n : Node} {m : Content}, Rep S n m → ∀ pfx q, Compat m q → q.length ≤ F →
      (n.isHash = true → q.length < F) → (n.isInner = true ∨ 0 < F) →
      LookupResult m q (t.tryGet F n pfx q) := by
  intro F
  induction F with
  | zero =>
    intro n m hrep pfx q hq hlen _ hlevel
    rcases hlevel with hinner | hpos
    · exact absurd (List.length_eq_zero_iff.mp (by omega)) (hrep.query_ne_nil hinner hq)
    · omega
  | succ F ih =>
    intro n m hrep pfx q hq hlen hlt _
    apply tryGetWith_spec t hD (F + 1) _ hrep pfx q hq hlen hlt
    intro n' m' pfx' q' hrep' hinner' hq' hlt'
    have hnh := Node.isHash_eq_false_of_isInner hinner'
    exact ih hrep' pfx' q' hq' (by omega) (by simp [hnh]) (.inl hinner')

/-- {lit}`TryGet` on a trie whose root stores {lit}`m` at terminated paths returns
the value {lit}`m` holds under the key, or a missing-node error. -/
theorem TryGet_spec (hD : DbAgrees S t.db) {m : Content}
    (hrep : Rep S t.root m) (hterm : Terminal m) (key : Bytes) :
    (∃ t', t.TryGet key = .ok (m (keybytesToHex (t.keyPrefix ++ key)), t')) ∨
      ∃ e, t.TryGet key = .error (.missing e) := by
  set k := keybytesToHex (t.keyPrefix ++ key) with hk
  have hq : Compat m k := compat_of_terminal hterm (keybytesToHex_terminated _)
  rcases tryGet_spec t hD (Trie.levels k) hrep [] k hq (by simp [Trie.levels])
      (fun _ => by simp [Trie.levels]) (.inr (by simp [Trie.levels])) with
    ⟨n', b, hr⟩ | ⟨e, hr⟩
  · left
    refine ⟨if b then { t with root := n' } else t, ?_⟩
    simp only [Trie.TryGet, ← hk, hr]
  · right
    exact ⟨e, by simp only [Trie.TryGet, ← hk, hr]⟩

end Mtp
end Uranus
