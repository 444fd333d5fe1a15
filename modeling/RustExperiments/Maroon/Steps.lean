/- module: RustExperiments/Maroon/Steps
   digest: One equation for the step of each task state over any stack beneath its local variables. -/

import RustExperiments.Maroon.Frames

set_option autoImplicit false
set_option relaxedAutoImplicit false

namespace RustExperiments.Maroon

open RustExperiments.Lib

/-- What the build needs to know about the part of a stack that a step does not touch: the
test build walks over it, the other build never looks at it. -/
def Untouched (p : Profile) (base : MaroonTaskStack) : Prop :=
  p.test = true → Frames FrameCounted base

theorem untouched_nil (p : Profile) : Untouched p [] := fun _ => .nil

theorem Untouched.push {p : Profile} {base : MaroonTaskStack} (u : Untouched p base)
    {r : MaroonTaskState} {v : MaroonTaskStackEntryValue}
    (counted : maroonTaskStateReturnLocalVarsCount r = 1) :
    Untouched p (base ++ [.value v, .retrn r]) := by
  intro h
  exact (u h).pushValue counted.symm

theorem Untouched.validate {p : Profile} {base : MaroonTaskStack} (u : Untouched p base)
    {s : MaroonTaskState} {vals : List MaroonTaskStackEntryValue}
    (counted : vals.length = maroonTaskStateLocalVarsCount s) :
    debugValidateMaroonStack p (base ++ (vals.map .value ++ [.state s])) = .ok () := by
  by_cases h : p.test = true
  · rw [← List.append_assoc]
    exact debugValidate_ok p (u h) counted
  · simp [debugValidateMaroonStack, h]

theorem stepTask_top (p : Profile) {base : MaroonTaskStack} (u : Untouched p base)
    {s : MaroonTaskState} (vals : List MaroonTaskStackEntryValue)
    (counted : vals.length = maroonTaskStateLocalVarsCount s)
    (ts : LogicalTimeAbsoluteMs) (heap : MaroonTaskHeap) :
    stepTask p ⟨ts, base ++ (vals.map .value ++ [.state s]), heap⟩ =
      globalStep p s vals.reverse heap >>= fun rh => finishTask p ts base rh.2 rh.1 := by
  have hvars := popVars_concat base vals
  rw [counted] at hvars
  simp only [stepTask, u.validate counted, except_ok_bind]
  simp only [← List.append_assoc, popState_concat, hvars, except_ok_bind]

theorem finish_next {p : Profile} {base : MaroonTaskStack} (u : Untouched p base)
    {s : MaroonTaskState} (vals : List MaroonTaskStackEntryValue)
    (counted : vals.length = maroonTaskStateLocalVarsCount s)
    (ts : LogicalTimeAbsoluteMs) (heap : MaroonTaskHeap) :
    finishTask p ts base heap (.next (vals.map .value ++ [.state s])) =
      .ok (.requeued none ⟨ts, base ++ (vals.map .value ++ [.state s]), heap⟩) := by
  simp [finishTask, u.validate counted]

theorem finish_write {p : Profile} {base : MaroonTaskStack} (u : Untouched p base)
    {s : MaroonTaskState} (vals : List MaroonTaskStackEntryValue)
    (counted : vals.length = maroonTaskStateLocalVarsCount s)
    (ts : LogicalTimeAbsoluteMs) (heap : MaroonTaskHeap) (text : String) :
    finishTask p ts base heap (.write text (vals.map .value ++ [.state s])) =
      .ok (.requeued (some text) ⟨ts, base ++ (vals.map .value ++ [.state s]), heap⟩) := by
  simp [finishTask, u.validate counted]

theorem finish_sleep {p : Profile} {base : MaroonTaskStack} (u : Untouched p base)
    {s : MaroonTaskState} (vals : List MaroonTaskStackEntryValue)
    (counted : vals.length = maroonTaskStateLocalVarsCount s)
    (ts : LogicalTimeAbsoluteMs) (heap : MaroonTaskHeap) (sleepMs : ℕ) :
    finishTask p ts base heap (.sleep sleepMs (vals.map .value ++ [.state s])) =
      checkedArith .add (u64Add p.overflowChecks ts sleepMs) >>= fun wake =>
        .ok (.requeued none ⟨wake, base ++ (vals.map .value ++ [.state s]), heap⟩) := by
  simp [finishTask, u.validate counted]

theorem finish_return (p : Profile) (base : MaroonTaskStack) (r : MaroonTaskState)
    (ts : LogicalTimeAbsoluteMs) (heap : MaroonTaskHeap) (v : MaroonTaskStackEntryValue) :
    finishTask p ts (base ++ [.retrn r]) heap (.return_ v) =
      .ok (.requeued none ⟨ts, base ++ [.value v, .state r], heap⟩) := by
  simp [finishTask]

variable (p : Profile) (ts : LogicalTimeAbsoluteMs)

theorem stepTask_completed (heap : MaroonTaskHeap) :
    stepTask p ⟨ts, [.state .completed], heap⟩ = .ok .finished :=
  stepTask_top p (untouched_nil p) (s := .completed) [] rfl ts heap

section Delay

variable (ms : ℕ) (msg : String) (heap : MaroonTaskHeap)

theorem stepTask_delayBegin :
    stepTask p ⟨ts, [.value (.delayInputMs ms), .value (.delayInputMessage msg),
        .state .delayedMessageTaskBegin], heap⟩ =
      checkedArith .add (u64Add p.overflowChecks ts ms) >>= fun wake =>
        .ok (.requeued none ⟨wake, [.value (.delayInputMs ms), .value (.delayInputMessage msg),
          .state .delayedMessageTaskExecute], heap⟩) :=
  (stepTask_top p (untouched_nil p) (s := .delayedMessageTaskBegin)
    [.delayInputMs ms, .delayInputMessage msg] rfl ts heap).trans
  (finish_sleep (untouched_nil p) (s := .delayedMessageTaskExecute)
    [.delayInputMs ms, .delayInputMessage msg] rfl ts heap ms)

theorem stepTask_delayExecute :
    stepTask p ⟨ts, [.value (.delayInputMs ms), .value (.delayInputMessage msg),
        .state .delayedMessageTaskExecute], heap⟩ =
      .ok (.requeued (some (formatDelayedMessage p ms msg)) ⟨ts, [.state .completed], heap⟩) :=
  (stepTask_top p (untouched_nil p) (s := .delayedMessageTaskExecute)
    [.delayInputMs ms, .delayInputMessage msg] rfl ts heap).trans
  (finish_write (untouched_nil p) (s := .completed) [] rfl ts heap _)

end Delay

section Divisors

variable (n i : ℕ)

theorem stepTask_divisorsBegin :
    stepTask p ⟨ts, [.state .divisorsTaskBegin], .divisors ⟨n, i⟩⟩ =
      .ok (.requeued none ⟨ts, [.state .divisorsTaskIteration], .divisors ⟨n, n⟩⟩) :=
  (stepTask_top p (untouched_nil p) (s := .divisorsTaskBegin) [] rfl ts _).trans
  (finish_next (untouched_nil p) (s := .divisorsTaskIteration) [] rfl ts _)

theorem stepTask_divisorsIteration :
    stepTask p ⟨ts, [.state .divisorsTaskIteration], .divisors ⟨n, i⟩⟩ =
      if searchDivisor n i = 0 then
        .ok (.requeued (some (formatDivisorsDone p n))
          ⟨ts, [.state .completed], .divisors ⟨n, i⟩⟩)
      else
        checkedArith .mul (u64Mul p.overflowChecks (searchDivisor n i) 10) >>= fun sleepMs =>
          checkedArith .add (u64Add p.overflowChecks ts sleepMs) >>= fun wake =>
            .ok (.requeued none
              ⟨wake, [.state .divisorsPrintAndMoveOn], .divisors ⟨n, searchDivisor n i⟩⟩) := by
  have htop := stepTask_top p (untouched_nil p) (s := .divisorsTaskIteration) [] rfl ts
    (.divisors ⟨n, i⟩)
  refine htop.trans ?_
  simp only [globalStep]
  split_ifs with h
  · exact finish_write (untouched_nil p) (s := .completed) [] rfl ts _ _
  · cases checkedArith .mul (u64Mul p.overflowChecks (searchDivisor n i) 10) with
    | error e => rfl
    | ok sleepMs =>
      exact finish_sleep (untouched_nil p) (s := .divisorsPrintAndMoveOn) [] rfl ts _ sleepMs

theorem stepTask_divisorsPrint :
    stepTask p ⟨ts, [.state .divisorsPrintAndMoveOn], .divisors ⟨n, i⟩⟩ =
      checkedArith .sub (u64Sub p.overflowChecks i 1) >>= fun i' =>
        .ok (.requeued (some (formatDivisorFound p n i))
          ⟨ts, [.state .divisorsTaskIteration], .divisors ⟨n, i'⟩⟩) := by
  have htop := stepTask_top p (untouched_nil p) (s := .divisorsPrintAndMoveOn) [] rfl ts
    (.divisors ⟨n, i⟩)
  refine htop.trans ?_
  simp only [globalStep]
  cases checkedArith .sub (u64Sub p.overflowChecks i 1) with
  | error e => rfl
  | ok i' =>
    exact finish_write (untouched_nil p) (s := .divisorsTaskIteration) [] rfl ts _ _

end Divisors

section Fibonacci

variable (n index a b delayMs : ℕ)

theorem stepTask_fibonacciBegin :
    stepTask p ⟨ts, [.state .fibonacciTaskBegin], .fibonacci ⟨n, index, a, b, delayMs⟩⟩ =
      if n ≤ 1 then
        .ok (.requeued (some (formatFibonacciResult p n n))
          ⟨ts, [.state .completed], .fibonacci ⟨n, index, a, b, delayMs⟩⟩)
      else
        .ok (.requeued none
          ⟨ts, [.state .fibonacciTaskCalculate], .fibonacci ⟨n, 1, 0, 1, delayMs⟩⟩) := by
  have htop := stepTask_top p (untouched_nil p) (s := .fibonacciTaskBegin) [] rfl ts
    (.fibonacci ⟨n, index, a, b, delayMs⟩)
  refine htop.trans ?_
  simp only [globalStep]
  split_ifs with h
  · exact finish_write (untouched_nil p) (s := .completed) [] rfl ts _ _
  · exact finish_next (untouched_nil p) (s := .fibonacciTaskCalculate) [] rfl ts _

theorem stepTask_fibonacciCalculate :
    stepTask p ⟨ts, [.state .fibonacciTaskCalculate], .fibonacci ⟨n, index, a, b, delayMs⟩⟩ =
      if index ≥ n then
        .ok (.requeued none
          ⟨ts, [.state .fibonacciTaskResult], .fibonacci ⟨n, index, a, b, delayMs⟩⟩)
      else
        checkedArith .mul (u64Mul p.overflowChecks 5 index) >>= fun delay =>
          .ok (.requeued (some (formatFibonacciStep p n index b a))
            ⟨ts, [.state .fibonacciTaskStep], .fibonacci ⟨n, index, a, b, delay⟩⟩) := by
  have htop := stepTask_top p (untouched_nil p) (s := .fibonacciTaskCalculate) [] rfl ts
    (.fibonacci ⟨n, index, a, b, delayMs⟩)
  refine htop.trans ?_
  simp only [globalStep]
  split_ifs with h
  · exact finish_next (untouched_nil p) (s := .fibonacciTaskResult) [] rfl ts _
  · cases checkedArith .mul (u64Mul p.overflowChecks 5 index) with
    | error e => rfl
    | ok delay =>
      exact finish_write (untouched_nil p) (s := .fibonacciTaskStep) [] rfl ts _ _

theorem stepTask_fibonacciStep :
    stepTask p ⟨ts, [.state .fibonacciTaskStep], .fibonacci ⟨n, index, a, b, delayMs⟩⟩ =
      checkedArith .add (u64Add p.overflowChecks index 1) >>= fun nextIndex =>
        checkedArith .add (u64Add p.overflowChecks a b) >>= fun nextB =>
          checkedArith .add (u64Add p.overflowChecks ts delayMs) >>= fun wake =>
            .ok (.requeued none ⟨wake, [.state .fibonacciTaskCalculate],
              .fibonacci ⟨n, nextIndex, b, nextB, delayMs⟩⟩) := by
  have htop := stepTask_top p (untouched_nil p) (s := .fibonacciTaskStep) [] rfl ts
    (.fibonacci ⟨n, index, a, b, delayMs⟩)
  refine htop.trans ?_
  simp only [globalStep]
  cases checkedArith .add (u64Add p.overflowChecks index 1) with
  | error e => rfl
  | ok nextIndex =>
    cases checkedArith .add (u64Add p.overflowChecks a b) with
    | error e => rfl
    | ok nextB =>
      exact finish_sleep (untouched_nil p) (s := .fibonacciTaskCalculate) [] rfl ts _ delayMs

theorem stepTask_fibonacciResult :
    stepTask p ⟨ts, [.state .fibonacciTaskResult], .fibonacci ⟨n, index, a, b, delayMs⟩⟩ =
      .ok (.requeued (some (formatFibonacciResult p n b))
        ⟨ts, [.state .completed], .fibonacci ⟨n, index, a, b, delayMs⟩⟩) :=
  (stepTask_top p (untouched_nil p) (s := .fibonacciTaskResult) [] rfl ts _).trans
  (finish_write (untouched_nil p) (s := .completed) [] rfl ts _ _)

end Fibonacci

section Factorial

variable (heap : MaroonTaskHeap) (n a : ℕ)

theorem stepTask_factorialEntry :
    stepTask p ⟨ts, [.value (.factorialInput n), .state .factorialEntry], heap⟩ =
      .ok (.requeued none ⟨ts, [.value (.factorialInput n), .retrn .factorialDone,
        .value (.factorialArgument n), .state .factorialRecursiveCall], heap⟩) :=
  (stepTask_top p (untouched_nil p) (s := .factorialEntry) [.factorialInput n] rfl ts heap).trans
  (finish_next (untouched_nil p |>.push (r := .factorialDone) (v := .factorialInput n) rfl)
    (s := .factorialRecursiveCall) [.factorialArgument n] rfl ts heap)

theorem stepTask_factorialDone :
    stepTask p ⟨ts, [.value (.factorialInput n), .value (.factorialReturnValue a),
        .state .factorialDone], heap⟩ =
      .ok (.requeued (some s!"{n}!={a}") ⟨ts, [.state .completed], heap⟩) :=
  (stepTask_top p (untouched_nil p) (s := .factorialDone)
    [.factorialInput n, .factorialReturnValue a] rfl ts heap).trans
  (finish_write (untouched_nil p) (s := .completed) [] rfl ts heap _)

variable {p} {base : MaroonTaskStack}

theorem stepTask_factorialCall (u : Untouched p base) :
    stepTask p ⟨ts, base ++ [.value (.factorialArgument n), .state .factorialRecursiveCall],
        heap⟩ =
      .ok (.requeued (some s!"f({n})") ⟨ts, base ++ [.value (.factorialArgument n),
        .state .factorialRecursionPostWrite], heap⟩) :=
  (stepTask_top p u (s := .factorialRecursiveCall) [.factorialArgument n] rfl ts heap).trans
  (finish_write u (s := .factorialRecursionPostWrite) [.factorialArgument n] rfl ts heap _)

theorem stepTask_factorialPostWrite (u : Untouched p base) :
    stepTask p ⟨ts, base ++ [.value (.factorialArgument n), .state .factorialRecursionPostWrite],
        heap⟩ =
      checkedArith .mul (u64Mul p.overflowChecks n 50) >>= fun sleepMs =>
        checkedArith .add (u64Add p.overflowChecks ts sleepMs) >>= fun wake =>
          .ok (.requeued none ⟨wake, base ++ [.value (.factorialArgument n),
            .state .factorialRecursionPostSleep], heap⟩) := by
  have htop := stepTask_top p u (s := .factorialRecursionPostWrite) [.factorialArgument n] rfl
    ts heap
  refine htop.trans ?_
  simp only [globalStep, List.reverse_singleton]
  cases checkedArith .mul (u64Mul p.overflowChecks n 50) with
  | error e => rfl
  | ok sleepMs =>
    exact finish_sleep u (s := .factorialRecursionPostSleep) [.factorialArgument n] rfl ts heap
      sleepMs

theorem stepTask_factorialRecurse (u : Untouched p base) (h : 1 < n) :
    stepTask p ⟨ts, base ++ [.value (.factorialArgument n), .state .factorialRecursionPostSleep],
        heap⟩ =
      .ok (.requeued none ⟨ts, base ++ [.value (.factorialArgument n),
        .retrn .factorialRecursionPostRecursiveCall] ++ [.value (.factorialArgument (n - 1)),
        .state .factorialRecursiveCall], heap⟩) := by
  have htop := stepTask_top p u (s := .factorialRecursionPostSleep) [.factorialArgument n] rfl
    ts heap
  have hfinish := finish_next (u.push (r := .factorialRecursionPostRecursiveCall)
    (v := .factorialArgument n) rfl) (s := .factorialRecursiveCall) [.factorialArgument (n - 1)]
    rfl ts heap
  refine htop.trans (Eq.trans ?_ hfinish)
  simp [globalStep, h, finishTask]

variable {r : MaroonTaskState}

theorem stepTask_factorialBottom (u : Untouched p (base ++ [.retrn r])) (h : n ≤ 1) :
    stepTask p ⟨ts, base ++ [.retrn r] ++ [.value (.factorialArgument n),
        .state .factorialRecursionPostSleep], heap⟩ =
      .ok (.requeued none ⟨ts, base ++ [.value (.factorialReturnValue 1), .state r], heap⟩) := by
  have htop := stepTask_top p u (s := .factorialRecursionPostSleep) [.factorialArgument n] rfl
    ts heap
  refine htop.trans (Eq.trans ?_ (finish_return p base r ts heap (.factorialReturnValue 1)))
  simp [globalStep, Nat.not_lt.mpr h]

theorem stepTask_factorialMultiply (u : Untouched p (base ++ [.retrn r])) :
    stepTask p ⟨ts, base ++ [.retrn r] ++ [.value (.factorialArgument n),
        .value (.factorialReturnValue a), .state .factorialRecursionPostRecursiveCall], heap⟩ =
      checkedArith .mul (u64Mul p.overflowChecks a n) >>= fun v =>
        .ok (.requeued none ⟨ts, base ++ [.value (.factorialReturnValue v), .state r], heap⟩) := by
  have htop := stepTask_top p u (s := .factorialRecursionPostRecursiveCall)
    [.factorialArgument n, .factorialReturnValue a] rfl ts heap
  refine htop.trans ?_
  simp only [globalStep, List.reverse_cons, List.reverse_nil, List.nil_append,
    List.singleton_append]
  cases checkedArith .mul (u64Mul p.overflowChecks a n) with
  | error e => rfl
  | ok v => exact finish_return p base r ts heap (.factorialReturnValue v)

end Factorial

end RustExperiments.Maroon
