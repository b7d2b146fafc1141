import Mathlib

/-!
# Folds in the option monad

A loop that can fail at each round is a {lit}`List.foldlM` in {lean}`Option`.  This
module gives the invariant rule for such a fold: an invariant indexed by the
elements already processed, which holds at the start and which every round keeps
without failing, holds of the fold's result, which exists.

The same loop in {lean}`Except` stops at its first error; a fold that returns a
value ran every round, so an invariant every successful round keeps holds of it.

Main results:

- Theorem {lit}`foldlM_option_inv`: the invariant rule.
- Theorem {lit}`foldlM_option_of_some`: an invariant every successful round keeps
  holds of a fold that returned a value.
- Theorem {lit}`foldlM_except_inv`: the invariant rule for a fold in {lean}`Except`
  that succeeded.
- Theorem {lit}`foldlM_exceptT_inv`: the invariant rule for a fold that may fail or
  panic, in {lean}`ExceptT` over {lean}`Option`, whose every round succeeds.
-/

namespace Uranus
namespace Lib

universe u

variable {α β : Type*}

/-- The invariant rule for a fold in {lean}`Option`.  A round is only asked to keep
the invariant at an element of the list, with the elements before it processed. -/
theorem foldlM_option_inv (f : β → α → Option β) (P : List α → β → Prop) :
    ∀ (l done : List α) (b : β), P done b →
      (∀ done' a rest b', done' ++ a :: rest = done ++ l → P done' b' →
        ∃ b'', f b' a = some b'' ∧ P (done' ++ [a]) b'') →
      ∃ b', l.foldlM f b = some b' ∧ P (done ++ l) b'
  | [], done, b, hb, _ => ⟨b, rfl, by simpa using hb⟩
  | a :: l, done, b, hb, hstep => by
    obtain ⟨b'', hf, hb''⟩ := hstep done a l b rfl hb
    obtain ⟨b', hl, hb'⟩ := foldlM_option_inv f P l (done ++ [a]) b'' hb''
      (fun done' a' rest b' heq hP => hstep done' a' rest b' (by simpa using heq) hP)
    refine ⟨b', ?_, by simpa using hb'⟩
    simp [List.foldlM_cons, hf, hl]

/-- The invariant rule for a fold in {lean}`Option` that returned a value, for an
invariant of the accumulator alone.  A round is only asked to keep the invariant
when it succeeds. -/
theorem foldlM_option_of_some (f : β → α → Option β) (P : β → Prop)
    (hstep : ∀ a b b', P b → f b a = some b' → P b') :
    ∀ (l : List α) (b b' : β), P b → l.foldlM f b = some b' → P b'
  | [], b, b', hb, h => by
    cases h
    exact hb
  | a :: l, b, b', hb, h => by
    rw [List.foldlM_cons] at h
    obtain ⟨b₂, hf, hl⟩ := Option.bind_eq_some_iff.mp h
    exact foldlM_option_of_some f P hstep l b₂ b' (hstep a b b₂ hb hf) hl

/-- The invariant rule for a fold in {lean}`Except` that returned a value.  A round is
only asked to keep the invariant when it succeeds. -/
theorem foldlM_except_inv {ε : Type*} (f : β → α → Except ε β) (P : List α → β → Prop) :
    ∀ (l done : List α) (b b' : β), P done b →
      (∀ done' a rest b₁ b₂, done' ++ a :: rest = done ++ l → P done' b₁ → f b₁ a = .ok b₂ →
        P (done' ++ [a]) b₂) →
      l.foldlM f b = .ok b' → P (done ++ l) b'
  | [], done, b, b', hb, _, h => by
    simp only [List.foldlM_nil, pure, Except.pure, Except.ok.injEq] at h
    simpa [← h] using hb
  | a :: l, done, b, b', hb, hstep, h => by
    simp only [List.foldlM_cons, bind, Except.bind] at h
    cases hf : f b a with
    | error e => simp [hf] at h
    | ok b₂ =>
      rw [hf] at h
      have hb₂ := hstep done a l b b₂ rfl hb hf
      have := foldlM_except_inv f P l (done ++ [a]) b₂ b' hb₂
        (fun done' a' rest b₁ b₃ heq hP => hstep done' a' rest b₁ b₃ (by simpa using heq) hP) h
      simpa using this

/-- The invariant rule for a fold in {lean}`ExceptT` over {lean}`Option`: when every round
keeps the invariant and neither fails nor panics, the fold returns a value that has
it. -/
theorem foldlM_exceptT_inv {ε σ : Type u} (f : σ → α → ExceptT ε Option σ)
    (P : List α → σ → Prop) :
    ∀ (l done : List α) (b : σ), P done b →
      (∀ done' a rest b', done' ++ a :: rest = done ++ l → P done' b' →
        ∃ b'', (f b' a).run = some (.ok b'') ∧ P (done' ++ [a]) b'') →
      ∃ b', (l.foldlM f b).run = some (.ok b') ∧ P (done ++ l) b'
  | [], done, b, hb, _ => ⟨b, rfl, by simpa using hb⟩
  | a :: l, done, b, hb, hstep => by
    obtain ⟨b'', hf, hb''⟩ := hstep done a l b rfl hb
    obtain ⟨b', hl, hb'⟩ := foldlM_exceptT_inv f P l (done ++ [a]) b'' hb''
      (fun done' a' rest b' heq hP => hstep done' a' rest b' (by simpa using heq) hP)
    refine ⟨b', ?_, by simpa using hb'⟩
    simp [List.foldlM_cons, ExceptT.run_bind, hf, hl]

end Lib
end Uranus
