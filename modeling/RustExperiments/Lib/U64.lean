/- module: RustExperiments/Lib/U64
   digest: 64-bit unsigned arithmetic under both overflow disciplines. -/

import Mathlib.Algebra.Group.Nat.Defs
import Mathlib.Data.Nat.Basic
import Mathlib.Tactic.SplitIfs

set_option autoImplicit false
set_option relaxedAutoImplicit false

namespace RustExperiments.Lib

/-- The number of `u64` values. -/
abbrev u64Size : ℕ := 2 ^ 64

/-- The result of an operation whose exact value is `v`: the value itself when it fits, and
otherwise a panic (`none`) with overflow checks or the residue without them. -/
def u64Fit (checks : Bool) (v : ℕ) : Option ℕ :=
  if v < u64Size then some v else if checks then none else some (v % u64Size)

def u64Add (checks : Bool) (a b : ℕ) : Option ℕ := u64Fit checks (a + b)

def u64Mul (checks : Bool) (a b : ℕ) : Option ℕ := u64Fit checks (a * b)

def u64Sub (checks : Bool) (a b : ℕ) : Option ℕ :=
  if b ≤ a then some (a - b) else if checks then none else some ((u64Size + a - b) % u64Size)

theorem u64Fit_of_lt {checks : Bool} {v : ℕ} (h : v < u64Size) :
    u64Fit checks v = some v := if_pos h

theorem u64Fit_of_checks {checks : Bool} {v : ℕ} (fits : checks = true → v < u64Size) :
    u64Fit checks v = some (v % u64Size) := by
  by_cases hlt : v < u64Size
  · rw [u64Fit_of_lt hlt, Nat.mod_eq_of_lt hlt]
  · have hchecks : ¬ checks = true := fun h => hlt (fits h)
    rw [u64Fit, if_neg hlt, if_neg hchecks]

theorem u64Fit_checked_iff {v r : ℕ} :
    u64Fit true v = some r ↔ v < u64Size ∧ r = v := by
  by_cases h : v < u64Size
  · simp [u64Fit, h, eq_comm]
  · simp [u64Fit, h]

theorem u64Fit_of_checked {checks : Bool} {v r : ℕ} (h : u64Fit true v = some r) :
    u64Fit checks v = some r := by
  obtain ⟨hlt, rfl⟩ := u64Fit_checked_iff.mp h
  exact u64Fit_of_lt hlt

theorem u64Add_exact {checks : Bool} {a b r : ℕ} (h : u64Add checks a b = some r)
    (fits : checks = false → a + b < u64Size) : r = a + b := by
  cases checks with
  | true => exact (u64Fit_checked_iff.mp h).2
  | false =>
    rw [u64Add, u64Fit_of_lt (fits rfl)] at h
    exact (Option.some.inj h).symm

theorem u64Sub_of_checked {checks : Bool} {a b r : ℕ} (h : u64Sub true a b = some r) :
    u64Sub checks a b = some r := by
  by_cases hle : b ≤ a
  · rw [u64Sub, if_pos hle] at h ⊢
    exact h
  · simp [u64Sub, hle] at h

theorem u64Fit_none_iff {checks : Bool} {v : ℕ} :
    u64Fit checks v = none ↔ checks = true ∧ u64Size ≤ v := by
  unfold u64Fit
  split_ifs with h hc
  · simp [h]
  · simp [hc, Nat.not_lt.mp h]
  · simp [hc]

theorem u64Fit_lt {checks : Bool} {v r : ℕ} (h : u64Fit checks v = some r) : r < u64Size := by
  unfold u64Fit at h
  split_ifs at h with hv hc
  · exact Option.some.inj h ▸ hv
  · exact Option.some.inj h ▸ Nat.mod_lt v (Nat.two_pow_pos 64)

theorem u64Sub_of_le {checks : Bool} {a b : ℕ} (h : b ≤ a) :
    u64Sub checks a b = some (a - b) := if_pos h

end RustExperiments.Lib
