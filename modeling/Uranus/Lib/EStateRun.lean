import Mathlib

/-!
# Running actions of {lit}`EStateM`

An action of {lit}`EStateM ε σ` is a function from states to results, so a proof
about a run applies the action to a state and follows the binds.  Core states its
lemmas for {lit}`EStateM.run`; these are the same facts for the applied form, in
which the model's definitions are written, with the inversion of a successful bind.

Main results:

- Theorems {lit}`bind_apply_ok` and {lit}`bind_apply_error`: a bind runs its first
  action, and stops at its error.
- Theorem {lit}`bind_apply_eq_ok`: a bind that succeeds ran both actions.
-/

namespace Uranus
namespace Lib

variable {ε σ α β : Type} {x : EStateM ε σ α} {f : α → EStateM ε σ β} {s s' : σ}

/-- {lit}`pure` returns its value and keeps the state. -/
@[simp]
theorem pure_apply (a : α) (s : σ) : (pure a : EStateM ε σ α) s = .ok a s := rfl

/-- {lit}`throw` fails and keeps the state. -/
@[simp]
theorem throw_apply (e : ε) (s : σ) : (throw e : EStateM ε σ α) s = .error e s := rfl

/-- A bind runs the first step, then the continuation on its value and state. -/
theorem bind_apply (x : EStateM ε σ α) (f : α → EStateM ε σ β) (s : σ) :
    (x >>= f) s = match x s with
      | .ok a s => f a s
      | .error e s => .error e s := rfl

/-- A bind after a successful step runs the continuation. -/
theorem bind_apply_ok {a : α} (h : x s = .ok a s') : (x >>= f) s = f a s' := by
  rw [bind_apply, h]

/-- A bind after a failed step fails with its error. -/
theorem bind_apply_error {e : ε} (h : x s = .error e s') : (x >>= f) s = .error e s' := by
  rw [bind_apply, h]

/-- A map after a successful step maps the value. -/
theorem map_apply_ok {g : α → β} {a : α} (h : x s = .ok a s') : (g <$> x) s = .ok (g a) s' := by
  show EStateM.map g x s = _
  rw [EStateM.map, h]

/-- A map after a failed step fails with its error. -/
theorem map_apply_error {g : α → β} {e : ε} (h : x s = .error e s') :
    (g <$> x) s = .error e s' := by
  show EStateM.map g x s = _
  rw [EStateM.map, h]

/-- A map of two steps with the same run at a state runs the same there. -/
theorem map_apply_of_eq {g : α → β} {y : EStateM ε σ α} (h : x s = y s) :
    (g <$> x) s = (g <$> y) s := by
  show EStateM.map g x s = EStateM.map g y s
  rw [EStateM.map, EStateM.map, h]

/-- A bind that succeeds ran its first action to a value, and then its second. -/
theorem bind_apply_eq_ok {b : β} {s'' : σ} (h : (x >>= f) s = .ok b s'') :
    ∃ a s', x s = .ok a s' ∧ f a s' = .ok b s'' := by
  rw [bind_apply] at h
  cases hx : x s with
  | ok a s' => exact ⟨a, s', rfl, by rwa [hx] at h⟩
  | error e s' => rw [hx] at h; cases h

end Lib
end Uranus
