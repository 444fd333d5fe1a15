/- module: RustExperiments/Maroon/Overflow
   digest: Exactly which launches run to their end without an arithmetic overflow. -/

import Mathlib.Algebra.BigOperators.Intervals
import Mathlib.Data.Nat.Factorial.Basic
import Mathlib.Data.Nat.Fib.Basic
import Mathlib.NumberTheory.Divisors
import RustExperiments.Maroon.Isolation

set_option autoImplicit false
set_option relaxedAutoImplicit false

namespace RustExperiments.Maroon

open RustExperiments.Lib

variable {p : Profile}

/-- No activation on the solo run from here panics on an overflow. -/
def OverflowFree (p : Profile) (c : Activation) : Prop :=
  ∀ n c' outputs, (solo p).after (some c) n = some (some c', outputs) →
    ∀ op, stepTask p c' ≠ .error (.overflow op)

def ResultFree (p : Profile) : Except Panic TaskOutcome → Prop
  | .ok .finished => True
  | .ok (.requeued _ next) => OverflowFree p next
  | .error (.overflow _) => False
  | .error _ => True

theorem after_none (n : ℕ) : (solo p).after none n = some (none, []) :=
  (solo p).after_of_final rfl n

theorem overflowFree_iff (c : Activation) : OverflowFree p c ↔ ResultFree p (stepTask p c) := by
  constructor
  · intro h
    cases hstep : stepTask p c with
    | error e =>
      cases e with
      | overflow op => exact absurd hstep (h 0 c [] rfl op)
      | _ => trivial
    | ok outcome =>
      cases outcome with
      | finished => trivial
      | requeued written next =>
        intro n c' outputs hafter
        have hone : (solo p).after (some c) 1 =
            some (some next, written.toList.map fun text => (c.ts, text)) :=
          ((solo p).run_singleton).mpr (solo_step_requeued hstep)
        exact h (1 + n) c' _ (((solo p).after_add_iff).mpr ⟨_, _, _, hone, hafter, rfl⟩)
  · intro h n c' outputs hafter op herror
    cases n with
    | zero =>
      cases hafter
      rw [herror] at h
      exact h
    | succ n =>
      rw [Nat.add_comm] at hafter
      obtain ⟨mid, o₁, o₂, hone, hrest, -⟩ := ((solo p).after_add_iff).mp hafter
      rcases solo_step_cases (((solo p).run_singleton).mp hone) with
        ⟨_, rfl, _⟩ | ⟨written, next, hstep, rfl, _⟩
      · rw [after_none] at hrest
        cases hrest
      · rw [hstep] at h
        exact h n c' o₂ hrest op herror

theorem resultFree_arith {op : Arith} {v : ℕ} {f : ℕ → Except Panic TaskOutcome} :
    ResultFree p (checkedArith op (u64Fit true v) >>= f) ↔ v < u64Size ∧ ResultFree p (f v) := by
  by_cases h : v < u64Size
  · simp [u64Fit, h, checkedArith]
  · simp [u64Fit, h, checkedArith, ResultFree]

@[simp] theorem resultFree_requeued (written : Option String) (next : Activation) :
    ResultFree p (.ok (.requeued written next)) ↔ OverflowFree p next := Iff.rfl

theorem overflowFree_completed (ts : LogicalTimeAbsoluteMs) (heap : MaroonTaskHeap) :
    OverflowFree p ⟨ts, [.state .completed], heap⟩ := by
  rw [overflowFree_iff, stepTask_completed]
  trivial

variable (test : Bool) (ts : ℕ)

theorem delay_free_iff (t : ℕ) (s : String) :
    OverflowFree ⟨test, true⟩ ((Launch.delay t s).activation ts) ↔ ts + t < u64Size := by
  rw [overflowFree_iff, Launch.activation, Launch.stack, stepTask_delayBegin, u64Add,
    resultFree_arith, resultFree_requeued, overflowFree_iff, stepTask_delayExecute,
    resultFree_requeued]
  exact and_iff_left (overflowFree_completed _ _)

section Divisors

/-- The sum of the divisors of `n` from the cursor down. -/
def divisorsUpTo (n i : ℕ) : ℕ := ∑ d ∈ (Finset.Icc 1 i).filter (· ∣ n), d

theorem divisorsUpTo_succ (n i : ℕ) :
    divisorsUpTo n (i + 1) = divisorsUpTo n i + if i + 1 ∣ n then i + 1 else 0 := by
  rw [divisorsUpTo, ← Finset.insert_Icc_right_eq_Icc_add_one (by omega), Finset.filter_insert]
  split_ifs with h
  · rw [Finset.sum_insert (by simp), Nat.add_comm]
    rfl
  · rfl

theorem divisorsUpTo_self (n : ℕ) : divisorsUpTo n n = ∑ d ∈ n.divisors, d := by
  cases n with
  | zero => rfl
  | succ n => rfl

theorem divisors_turn_free_iff (n i : ℕ) :
    OverflowFree ⟨test, true⟩ ⟨ts, [.state .divisorsTaskIteration], .divisors ⟨n, i⟩⟩ ↔
      searchDivisor n i = 0 ∨ ts + searchDivisor n i * 10 < u64Size ∧
        OverflowFree ⟨test, true⟩ ⟨ts + searchDivisor n i * 10, [.state .divisorsTaskIteration],
          .divisors ⟨n, searchDivisor n i - 1⟩⟩ := by
  rw [overflowFree_iff, stepTask_divisorsIteration]
  split_ifs with h
  · simp [h, overflowFree_completed]
  · rw [u64Mul, resultFree_arith, u64Add, resultFree_arith, resultFree_requeued,
      overflowFree_iff, stepTask_divisorsPrint, u64Sub_of_le (Nat.pos_of_ne_zero h)]
    simp only [checkedArith, except_ok_bind, resultFree_requeued, h, false_or]
    exact and_iff_right_of_imp fun hsum => lt_of_le_of_lt (Nat.le_add_left _ _) hsum.1

theorem divisors_loop_free_iff (n i : ℕ) (h : ts < u64Size) :
    OverflowFree ⟨test, true⟩ ⟨ts, [.state .divisorsTaskIteration], .divisors ⟨n, i⟩⟩ ↔
      ts + 10 * divisorsUpTo n i < u64Size := by
  induction i generalizing ts with
  | zero =>
    rw [divisors_turn_free_iff]
    simp [searchDivisor, divisorsUpTo, h]
  | succ i ih =>
    rw [divisorsUpTo_succ]
    by_cases hdvd : i + 1 ∣ n
    · have hsearch : searchDivisor n (i + 1) = i + 1 := by
        simp [searchDivisor, Nat.mod_eq_zero_of_dvd hdvd]
      rw [divisors_turn_free_iff, hsearch, Nat.add_sub_cancel, if_pos hdvd]
      constructor
      · rintro (h0 | ⟨hnow, hlater⟩)
        · omega
        · have := (ih _ hnow).mp hlater
          omega
      · intro hsum
        have hnow : ts + (i + 1) * 10 < u64Size := by omega
        exact Or.inr ⟨hnow, (ih _ hnow).mpr (by omega)⟩
    · have hsearch : searchDivisor n (i + 1) = searchDivisor n i := by
        simp [searchDivisor, mt Nat.dvd_of_mod_eq_zero hdvd]
      rw [divisors_turn_free_iff, hsearch, ← divisors_turn_free_iff, if_neg hdvd]
      exact ih ts h

theorem divisors_free_iff (n : ℕ) (h : ts < u64Size) :
    OverflowFree ⟨test, true⟩ ((Launch.divisors n).activation ts) ↔
      ts + 10 * ∑ d ∈ n.divisors, d < u64Size := by
  rw [overflowFree_iff, Launch.activation, Launch.stack, Launch.heap, stepTask_divisorsBegin,
    resultFree_requeued, divisors_loop_free_iff test ts n n h, divisorsUpTo_self]

end Divisors

section Fibonacci

theorem fib_fits_iff (n : ℕ) : Nat.fib n < u64Size ↔ n ≤ 93 := by
  constructor
  · intro h
    by_contra hn
    have hmono : Nat.fib 94 ≤ Nat.fib n := Nat.fib_mono (by omega)
    have hbig : u64Size ≤ Nat.fib 94 := by decide +kernel
    omega
  · intro h
    have hmono : Nat.fib n ≤ Nat.fib 93 := Nat.fib_mono h
    have hsmall : Nat.fib 93 < u64Size := by decide +kernel
    omega

theorem fibonacci_turn_free_iff (n index a b delayMs : ℕ) :
    OverflowFree ⟨test, true⟩
        ⟨ts, [.state .fibonacciTaskCalculate], .fibonacci ⟨n, index, a, b, delayMs⟩⟩ ↔
      n ≤ index ∨ 5 * index < u64Size ∧ index + 1 < u64Size ∧ a + b < u64Size ∧
        ts + 5 * index < u64Size ∧ OverflowFree ⟨test, true⟩
          ⟨ts + 5 * index, [.state .fibonacciTaskCalculate],
            .fibonacci ⟨n, index + 1, b, a + b, 5 * index⟩⟩ := by
  rw [overflowFree_iff, stepTask_fibonacciCalculate]
  split_ifs with h
  · have hdone : OverflowFree ⟨test, true⟩
        ⟨ts, [.state .fibonacciTaskResult], .fibonacci ⟨n, index, a, b, delayMs⟩⟩ := by
      rw [overflowFree_iff, stepTask_fibonacciResult]
      exact overflowFree_completed _ _
    simp [hdone, h]
  · rw [u64Mul, resultFree_arith, resultFree_requeued, overflowFree_iff, stepTask_fibonacciStep,
      u64Add, resultFree_arith, u64Add, resultFree_arith, u64Add, resultFree_arith,
      resultFree_requeued, or_iff_right h]

theorem fibonacci_loop_free_iff (m k delayMs : ℕ) (h : ts < u64Size)
    (fits : Nat.fib (k + 1) < u64Size) :
    OverflowFree ⟨test, true⟩ ⟨ts, [.state .fibonacciTaskCalculate],
        .fibonacci ⟨k + 1 + m, k + 1, Nat.fib k, Nat.fib (k + 1), delayMs⟩⟩ ↔
      Nat.fib (k + 1 + m) < u64Size ∧
        ts + 5 * ∑ i ∈ Finset.Ico (k + 1) (k + 1 + m), i < u64Size := by
  induction m generalizing ts k delayMs with
  | zero =>
    rw [fibonacci_turn_free_iff]
    simp [h, fits]
  | succ m ih =>
    have hindex : k + 1 + (m + 1) = k + 1 + 1 + m := by omega
    rw [fibonacci_turn_free_iff, hindex, or_iff_right (by omega), ← Nat.fib_add_two,
      Finset.sum_eq_sum_Ico_succ_bot (by omega : k + 1 < k + 1 + 1 + m)]
    constructor
    · rintro ⟨_, _, hnext, hwake, hrest⟩
      have hloop := (ih _ _ _ hwake hnext).mp hrest
      exact ⟨hloop.1, by omega⟩
    · rintro ⟨hlast, hwaits⟩
      have hmono : Nat.fib (k + 2) ≤ Nat.fib (k + 1 + 1 + m) := Nat.fib_mono (by omega)
      have hsmall := (fib_fits_iff _).mp hlast
      have hnext : Nat.fib (k + 2) < u64Size := by omega
      have hwake : ts + 5 * (k + 1) < u64Size := by omega
      exact ⟨by omega, by omega, hnext, hwake, (ih _ _ _ hwake hnext).mpr ⟨hlast, by omega⟩⟩

theorem fibonacci_free_iff (n : ℕ) (h : ts < u64Size) :
    OverflowFree ⟨test, true⟩ ((Launch.fibonacci n).activation ts) ↔
      Nat.fib n < u64Size ∧ ts + 5 * ∑ i ∈ Finset.Ico 1 n, i < u64Size := by
  rw [overflowFree_iff, Launch.activation, Launch.stack, Launch.heap, stepTask_fibonacciBegin]
  split_ifs with hn
  · have hfib := (fib_fits_iff n).mpr (by omega)
    simp [overflowFree_completed, hfib, Finset.Ico_eq_empty_of_le hn, h]
  · obtain ⟨m, rfl⟩ := Nat.exists_eq_add_of_le (by omega : 0 + 1 ≤ n)
    exact fibonacci_loop_free_iff test ts m 0 0 h (by decide)

end Fibonacci

section Factorial

theorem factorial_fits_iff (n : ℕ) : n.factorial < u64Size ↔ n ≤ 20 := by
  constructor
  · intro h
    by_contra hn
    have hmono : Nat.factorial 21 ≤ n.factorial := Nat.factorial_le (by omega)
    have hbig : u64Size ≤ Nat.factorial 21 := by decide
    omega
  · intro h
    have hmono : n.factorial ≤ Nat.factorial 20 := Nat.factorial_le h
    have hsmall : Nat.factorial 20 < u64Size := by decide
    omega

variable {base : MaroonTaskStack} {r : MaroonTaskState} (heap : MaroonTaskHeap)

theorem factorial_enter_free_iff (n : ℕ) (u : Untouched ⟨test, true⟩ base) :
    OverflowFree ⟨test, true⟩ ⟨ts, base ++ [.value (.factorialArgument n),
        .state .factorialRecursiveCall], heap⟩ ↔
      ts + n * 50 < u64Size ∧ OverflowFree ⟨test, true⟩ ⟨ts + n * 50,
        base ++ [.value (.factorialArgument n), .state .factorialRecursionPostSleep], heap⟩ := by
  rw [overflowFree_iff, stepTask_factorialCall ts heap n u, resultFree_requeued,
    overflowFree_iff, stepTask_factorialPostWrite ts heap n u, u64Mul, resultFree_arith, u64Add,
    resultFree_arith, resultFree_requeued]
  exact and_iff_right_of_imp fun hsum => lt_of_le_of_lt (Nat.le_add_left _ _) hsum.1

theorem factorial_recurse_free_iff (n : ℕ) (u : Untouched ⟨test, true⟩ base) (h : 1 < n) :
    OverflowFree ⟨test, true⟩ ⟨ts, base ++ [.value (.factorialArgument n),
        .state .factorialRecursionPostSleep], heap⟩ ↔
      OverflowFree ⟨test, true⟩ ⟨ts, base ++ [.value (.factorialArgument n)] ++
        [.retrn .factorialRecursionPostRecursiveCall] ++ [.value (.factorialArgument (n - 1)),
          .state .factorialRecursiveCall], heap⟩ := by
  rw [overflowFree_iff, stepTask_factorialRecurse ts heap n u h, resultFree_requeued,
    List.append_assoc base [_] [_], List.singleton_append]

theorem factorial_bottom_free_iff (n : ℕ) (u : Untouched ⟨test, true⟩ (base ++ [.retrn r]))
    (h : n ≤ 1) :
    OverflowFree ⟨test, true⟩ ⟨ts, base ++ [.retrn r] ++ [.value (.factorialArgument n),
        .state .factorialRecursionPostSleep], heap⟩ ↔
      OverflowFree ⟨test, true⟩
        ⟨ts, base ++ [.value (.factorialReturnValue 1), .state r], heap⟩ := by
  rw [overflowFree_iff, stepTask_factorialBottom ts heap n u h, resultFree_requeued]

theorem factorial_multiply_free_iff (n a : ℕ) (u : Untouched ⟨test, true⟩ (base ++ [.retrn r])) :
    OverflowFree ⟨test, true⟩ ⟨ts, base ++ [.retrn r] ++ [.value (.factorialArgument n)] ++
        [.value (.factorialReturnValue a), .state .factorialRecursionPostRecursiveCall], heap⟩ ↔
      a * n < u64Size ∧ OverflowFree ⟨test, true⟩
        ⟨ts, base ++ [.value (.factorialReturnValue (a * n)), .state r], heap⟩ := by
  rw [List.append_assoc (base ++ [_]) [_] [_, _], List.singleton_append, overflowFree_iff,
    stepTask_factorialMultiply ts heap n a u, u64Mul, resultFree_arith, resultFree_requeued]

/-- A call over any frames returns the factorial to the top frame after all its waits, unless
a wait or a product overflows. -/
theorem factorial_call_free_iff (n : ℕ) (h : ts < u64Size)
    (u : Untouched ⟨test, true⟩ (base ++ [.retrn r])) :
    OverflowFree ⟨test, true⟩ ⟨ts, base ++ [.retrn r] ++ [.value (.factorialArgument n),
        .state .factorialRecursiveCall], heap⟩ ↔
      ts + 50 * ∑ i ∈ Finset.range (n + 1), i < u64Size ∧ n.factorial < u64Size ∧
        OverflowFree ⟨test, true⟩ ⟨ts + 50 * ∑ i ∈ Finset.range (n + 1), i,
          base ++ [.value (.factorialReturnValue n.factorial), .state r], heap⟩ := by
  induction n generalizing ts base r with
  | zero =>
    rw [factorial_enter_free_iff test ts heap 0 u,
      factorial_bottom_free_iff test _ heap 0 u (Nat.zero_le 1)]
    simp [h]
  | succ n ih =>
    have hwaits : ts + 50 * ∑ i ∈ Finset.range (n + 1 + 1), i =
        ts + (n + 1) * 50 + 50 * ∑ i ∈ Finset.range (n + 1), i := by
      rw [Finset.sum_range_succ]
      ring
    rw [factorial_enter_free_iff test ts heap (n + 1) u, hwaits]
    by_cases hn : 1 < n + 1
    · have hframe : Untouched ⟨test, true⟩ (base ++ [.retrn r] ++
          [.value (.factorialArgument (n + 1))] ++
            [.retrn .factorialRecursionPostRecursiveCall]) := by
        simpa using u.push (r := .factorialRecursionPostRecursiveCall)
          (v := .factorialArgument (n + 1)) rfl
      have hproduct : n.factorial * (n + 1) = (n + 1).factorial := by
        rw [Nat.factorial_succ, Nat.mul_comm]
      have hmono : n.factorial ≤ (n + 1).factorial := Nat.factorial_le (Nat.le_succ n)
      rw [factorial_recurse_free_iff test _ heap (n + 1) u hn, Nat.add_sub_cancel]
      constructor
      · rintro ⟨hwake, hcall⟩
        obtain ⟨hsum, _, hresult⟩ := (ih _ hwake hframe).mp hcall
        rw [factorial_multiply_free_iff test _ heap (n + 1) _ u, hproduct] at hresult
        exact ⟨hsum, hresult⟩
      · rintro ⟨hsum, hresult⟩
        have hwake : ts + (n + 1) * 50 < u64Size := by omega
        refine ⟨hwake, (ih _ hwake hframe).mpr ⟨hsum, by omega, ?_⟩⟩
        rw [factorial_multiply_free_iff test _ heap (n + 1) _ u, hproduct]
        exact hresult
    · obtain rfl : n = 0 := by omega
      rw [factorial_bottom_free_iff test _ heap (0 + 1) u (Nat.le_refl 1)]
      simp

theorem factorial_free_iff (n : ℕ) (h : ts < u64Size) :
    OverflowFree ⟨test, true⟩ ((Launch.factorial n).activation ts) ↔
      ts + 50 * ∑ i ∈ Finset.range (n + 1), i < u64Size ∧ n.factorial < u64Size := by
  have hframe : Untouched ⟨test, true⟩ ([MaroonTaskStackEntry.value (.factorialInput n)] ++
      [.retrn .factorialDone]) :=
    (untouched_nil _).push (r := .factorialDone) (v := .factorialInput n) rfl
  have hcall := factorial_call_free_iff test ts .empty n h hframe
  have hdone : OverflowFree ⟨test, true⟩ ⟨ts + 50 * ∑ i ∈ Finset.range (n + 1), i,
      [.value (.factorialInput n)] ++ [.value (.factorialReturnValue n.factorial),
        .state .factorialDone], .empty⟩ := by
    rw [overflowFree_iff]
    exact (congrArg (ResultFree _) (stepTask_factorialDone _ _ _ _ _)).mpr
      (overflowFree_completed _ _)
  rw [overflowFree_iff, Launch.activation, Launch.stack, Launch.heap, stepTask_factorialEntry,
    resultFree_requeued]
  exact hcall.trans (and_congr_right fun _ => and_iff_left hdone)

end Factorial

section Release

theorem globalStep_release {s : MaroonTaskState} {vars : List MaroonTaskStackEntryValue}
    {heap : MaroonTaskHeap} {r : MaroonStepResult × MaroonTaskHeap}
    (h : globalStep ⟨test, true⟩ s vars heap = .ok r) :
    globalStep ⟨test, false⟩ s vars heap = .ok r := by
  cases s with
  | divisorsTaskIteration =>
    cases heap with
    | divisors data =>
      simp only [globalStep] at h ⊢
      split_ifs at h ⊢
      · exact h
      · simp only [except_bind_ok, checkedArith_ok] at h ⊢
        obtain ⟨sleepMs, hsleep, hr⟩ := h
        exact ⟨sleepMs, u64Fit_of_checked hsleep, hr⟩
    | _ => exact h
  | divisorsPrintAndMoveOn =>
    cases heap with
    | divisors data =>
      simp only [globalStep, except_bind_ok, checkedArith_ok] at h ⊢
      obtain ⟨i, hi, hr⟩ := h
      exact ⟨i, u64Sub_of_checked hi, hr⟩
    | _ => exact h
  | fibonacciTaskCalculate =>
    cases heap with
    | fibonacci data =>
      simp only [globalStep] at h ⊢
      split_ifs at h ⊢
      · exact h
      · simp only [except_bind_ok, checkedArith_ok] at h ⊢
        obtain ⟨delay, hdelay, hr⟩ := h
        exact ⟨delay, u64Fit_of_checked hdelay, hr⟩
    | _ => exact h
  | fibonacciTaskStep =>
    cases heap with
    | fibonacci data =>
      simp only [globalStep, except_bind_ok, checkedArith_ok] at h ⊢
      obtain ⟨nextIndex, hindex, nextB, hb, hr⟩ := h
      exact ⟨nextIndex, u64Fit_of_checked hindex, nextB, u64Fit_of_checked hb, hr⟩
    | _ => exact h
  | factorialRecursionPostWrite =>
    simp only [globalStep] at h ⊢
    split at h
    · simp only [except_bind_ok, checkedArith_ok] at h ⊢
      obtain ⟨sleepMs, hsleep, hr⟩ := h
      exact ⟨sleepMs, u64Fit_of_checked hsleep, hr⟩
    · cases h
  | factorialRecursionPostRecursiveCall =>
    simp only [globalStep] at h ⊢
    split at h
    · simp only [except_bind_ok, checkedArith_ok] at h ⊢
      obtain ⟨product, hproduct, hr⟩ := h
      exact ⟨product, u64Fit_of_checked hproduct, hr⟩
    · cases h
  | _ => exact h

theorem stepTask_release {c : Activation} {outcome : TaskOutcome}
    (h : stepTask ⟨test, true⟩ c = .ok outcome) : stepTask ⟨test, false⟩ c = .ok outcome := by
  simp only [stepTask, except_bind_ok] at h ⊢
  obtain ⟨_, hvalid, se, hstate, ve, hvars, rh, hstep, hfinish⟩ := h
  refine ⟨_, hvalid, se, hstate, ve, hvars, rh, globalStep_release test hstep, ?_⟩
  obtain ⟨stepResult, heap⟩ := rh
  cases stepResult with
  | sleep sleepMs newStates =>
    simp only [finishTask, except_bind_ok, checkedArith_ok] at hfinish ⊢
    obtain ⟨_, hstack, wake, hwake, hr⟩ := hfinish
    exact ⟨_, hstack, wake, u64Fit_of_checked hwake, hr⟩
  | _ => exact hfinish

/-- The release build wraps only where the other build panics: up to there they run alike. -/
theorem solo_release {s t : Option Activation} {n : ℕ}
    {outputs : List (LogicalTimeAbsoluteMs × String)}
    (h : (solo ⟨test, true⟩).after s n = some (t, outputs)) :
    (solo ⟨test, false⟩).after s n = some (t, outputs) := by
  induction n generalizing t outputs with
  | zero => exact h
  | succ n ih =>
    obtain ⟨mid, o₁, o₂, hleft, hstep, rfl⟩ := ((solo _).after_succ_iff).mp h
    refine ((solo _).after_succ_iff).mpr ⟨mid, o₁, o₂, ih hleft, ?_, rfl⟩
    cases mid with
    | none => exact hstep
    | some c =>
      rcases solo_step_cases hstep with ⟨hc, rfl, rfl⟩ | ⟨written, next, hc, rfl, rfl⟩
      · exact solo_step_finished (stepTask_release test hc)
      · exact solo_step_requeued (stepTask_release test hc)

end Release

/-- In no run of the task alone does an iteration of the executor overflow. -/
def ArithmeticSafe (l : Launch) (ts : LogicalTimeAbsoluteMs) : Prop :=
  ∀ (W : Type) (H : PendingHeap) (writer : W) (inputs : List (Input W)) (fsm : MaroonRuntime W H)
    (events : List (Event W)),
    (runtime ⟨test, true⟩ W H).run (MaroonRuntime.new W H) inputs = some (fsm, events) →
    scheduleCalls inputs = [(writer, l, ts)] → ∀ cutoff writeResult op,
      executePendingOperationsIteration ⟨test, true⟩ fsm cutoff writeResult ≠
        .error (.overflow op)

theorem arithmeticSafe_iff (l : Launch) (ts : LogicalTimeAbsoluteMs) :
    ArithmeticSafe test l ts ↔ OverflowFree ⟨test, true⟩ (l.activation ts) := by
  constructor
  · intro safe n c outputs hafter op herror
    obtain ⟨fsm, events, hrun, hat, _⟩ := alone_run .list () l ts hafter
    obtain ⟨pending, task, _, _, heq⟩ := hat.iteration_eq (p := ⟨test, true⟩) (.ok ())
    refine safe Unit .list () _ fsm events hrun ?_ (max ts (u64Size - 1)) (.ok ()) op ?_
    · simp [scheduleCalls, aloneInputs]
    · rw [heq, herror]
      rfl
  · intro free W H writer inputs fsm events hrun hsingle cutoff writeResult op herror
    have fit : IdsFit ⟨test, true⟩ inputs := fun h => by cases h
    have consistent := consistent_of_run hrun fit
    rcases iteration_cases ⟨test, true⟩ fsm cutoff writeResult with
      ⟨_, heq⟩ | ⟨t, pending, hpop, _, heq⟩
    · rw [heq] at herror
      cases herror
    · have hactive := consistent.popped_active hpop
      obtain ⟨task, hlookup⟩ := Finmap.mem_iff.mp hactive
      obtain ⟨e, he, hissued⟩ := List.mem_filterMap.mp ((consistent.active_iff _).mp hactive).1
      cases e with
      | executed => cases hissued
      | idle => cases hissued
      | scheduled taskId writer' l' ts' =>
        obtain rfl : taskId = t.taskId := Option.some.inj hissued
        have hcall : (writer', l', ts') ∈ events.filterMap Event.call :=
          List.mem_filterMap.mpr ⟨_, he, rfl⟩
        rw [calls_of_run hrun, hsingle, List.mem_singleton] at hcall
        cases hcall
        obtain ⟨_, n, outputs, hsolo, _⟩ := ((isolated_of_run hrun fit).follows _ _ _ _ he).popped
          consistent hpop rfl hlookup
        rw [heq, executeOperation_eq _ { fsm with pendingOperations := pending } _ _ hlookup]
          at herror
        cases hstep : stepTask ⟨test, true⟩
            ⟨t.scheduledTimestamp, task.maroonStack, task.maroonHeap⟩ with
        | ok outcome => simp [hstep, Except.map] at herror
        | error e =>
          rw [hstep] at herror
          cases herror
          exact free n _ outputs hsolo op hstep

/-- The launches whose whole run stays within 64 bits. -/
def Launch.Fits (ts : LogicalTimeAbsoluteMs) : Launch → Prop
  | .delay t _ => ts + t < 2 ^ 64
  | .divisors n => ts + 10 * ∑ d ∈ n.divisors, d < 2 ^ 64
  | .fibonacci n => n ≤ 93
  | .factorial n => n ≤ 20

/-- The run of a launched task overflows nowhere exactly when its parameters are this small. -/
theorem arithmetic_safe_iff_fits (l : Launch) (ts : LogicalTimeAbsoluteMs) (early : ts ≤ 2 ^ 63) :
    ArithmeticSafe test l ts ↔ l.Fits ts := by
  have hts : ts < u64Size := Nat.lt_of_le_of_lt early (by decide)
  rw [arithmeticSafe_iff]
  cases l with
  | delay t s => exact delay_free_iff test ts t s
  | divisors n => exact divisors_free_iff test ts n hts
  | fibonacci n =>
    rw [fibonacci_free_iff test ts n hts, fib_fits_iff]
    refine and_iff_left_of_imp fun hn => ?_
    have hsum : ∑ i ∈ Finset.Ico 1 n, i ≤ ∑ i ∈ Finset.Ico 1 93, i :=
      Finset.sum_le_sum_of_subset (Finset.Ico_subset_Ico_right hn)
    have hbound : ∑ i ∈ Finset.Ico 1 93, i = 4278 := by decide
    have hlarge : (2 : ℕ) ^ 63 + 5 * 4278 < u64Size := by decide
    exact Nat.lt_of_le_of_lt (Nat.add_le_add early (Nat.mul_le_mul_left 5 (hbound ▸ hsum))) hlarge
  | factorial n =>
    rw [factorial_free_iff test ts n hts, factorial_fits_iff]
    refine and_iff_right_of_imp fun hn => ?_
    have hsum : ∑ i ∈ Finset.range (n + 1), i ≤ ∑ i ∈ Finset.range 21, i :=
      Finset.sum_le_sum_of_subset (Finset.range_mono (Nat.succ_le_succ hn))
    have hbound : ∑ i ∈ Finset.range 21, i = 210 := by decide
    have hlarge : (2 : ℕ) ^ 63 + 50 * 210 < u64Size := by decide
    exact Nat.lt_of_le_of_lt (Nat.add_le_add early (Nat.mul_le_mul_left 50 (hbound ▸ hsum))) hlarge

theorem delay_route_fits : ArithmeticSafe true (.delay 5 "hi") 3 :=
  (arithmetic_safe_iff_fits true (.delay 5 "hi") 3 (by decide)).mpr
    (show 3 + 5 < 2 ^ 64 by decide)

/-- `/factorial/21` and a delay that outlasts the clock, both at the start of the timer. -/
theorem routes_overflow :
    ¬ ArithmeticSafe false (.factorial 21) 0 ∧
      ¬ ArithmeticSafe false (.delay (2 ^ 64 - 1) "hi") 1 := by
  rw [arithmeticSafe_iff, arithmeticSafe_iff, factorial_free_iff false 0 21 (by decide),
    factorial_fits_iff, delay_free_iff]
  exact ⟨by omega, by decide⟩

end RustExperiments.Maroon
