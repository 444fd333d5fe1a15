/- module: RustExperiments/Lib/Except
   digest: Peeling sequenced computations apart in the exception monad. -/

import Mathlib.Tactic.Basic

set_option autoImplicit false
set_option relaxedAutoImplicit false

namespace RustExperiments.Lib

universe u

variable {ε α β : Type u}

theorem except_bind_ok {x : Except ε α} {f : α → Except ε β} {b : β} :
    x >>= f = .ok b ↔ ∃ a, x = .ok a ∧ f a = .ok b := by
  cases x <;> simp [bind, Except.bind]

@[simp] theorem except_ok_bind (a : α) (f : α → Except ε β) : (.ok a : Except ε α) >>= f = f a :=
  rfl

@[simp] theorem except_error_bind (e : ε) (f : α → Except ε β) :
    (.error e : Except ε α) >>= f = .error e := rfl

theorem except_toOption_eq_some {x : Except ε α} {a : α} : x.toOption = some a ↔ x = .ok a := by
  cases x <;> simp [Except.toOption]

end RustExperiments.Lib
