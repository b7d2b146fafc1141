import Mathlib

/-!
# Computations that can fail or panic

A Go function that returns an error and may also panic is modelled in
{lit}`ExceptT ε Option`: its run is {lean}`none` for a panic, and otherwise the
error or the value.  A proof about such a function follows its binds one at a
time: a step that succeeds passes its value on, and one that fails or panics ends
the run the same way.

Main results:

- Theorems {lit}`run_bind_ok`, {lit}`run_bind_error` and {lit}`run_bind_panic`: a
  bind after a step that succeeds, fails or panics.
- Theorems {lit}`run_adapt_ok` and {lit}`run_adapt_panic`: relabelling the error
  keeps a value and a panic.
-/

namespace Uranus
namespace Lib

variable {ε ε' α β : Type} {x : ExceptT ε Option α} {f : α → ExceptT ε Option β}

/-- A bind after a successful step runs the continuation. -/
theorem run_bind_ok {a : α} (h : x.run = some (.ok a)) : (x >>= f).run = (f a).run := by
  simp [ExceptT.run_bind, h]

/-- A bind after an error returns it. -/
theorem run_bind_error {e : ε} (h : x.run = some (.error e)) : (x >>= f).run = some (.error e) := by
  simp [ExceptT.run_bind, h]

/-- A bind after a panic panics. -/
theorem run_bind_panic (h : x.run = none) : (x >>= f).run = none := by
  simp [ExceptT.run_bind, h]

/-- Adapting the error keeps a success. -/
theorem run_adapt_ok {g : ε → ε'} {a : α} (h : x.run = some (.ok a)) :
    (ExceptT.adapt g x).run = some (.ok a) := by
  simp [ExceptT.run_adapt, h, Except.mapError]

/-- Adapting the error keeps a panic. -/
theorem run_adapt_panic {g : ε → ε'} (h : x.run = none) : (ExceptT.adapt g x).run = none := by
  simp [ExceptT.run_adapt, h]

/-- An {lean}`Option` value lifted into the computation: a panic when it is
{lean}`none`. -/
theorem run_lift_some (a : α) : (liftM (some a) : ExceptT ε Option α).run = some (.ok a) := rfl

/-- A lifted {lean}`none` panics. -/
theorem run_lift_none : (liftM (none : Option α) : ExceptT ε Option α).run = none := rfl

end Lib
end Uranus
