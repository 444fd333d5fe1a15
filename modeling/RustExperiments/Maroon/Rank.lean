/- module: RustExperiments/Maroon/Rank
   digest: How many steps a task has before it at most, read off its stack and heap alone. -/

import RustExperiments.Maroon.Typing

set_option autoImplicit false
set_option relaxedAutoImplicit false

namespace RustExperiments.Maroon

open RustExperiments.Lib

/-- The path parameter is a `u64`. -/
def Launch.IsU64 : Launch → Prop
  | .delay t _ => t < u64Size
  | .divisors n => n < u64Size
  | .fibonacci n => n < u64Size
  | .factorial n => n < u64Size

def framesRank (base : MaroonTaskStack) : ℕ :=
  base.count (.retrn .factorialRecursionPostRecursiveCall) + 2 * base.count (.retrn .factorialDone)

/-- The steps that a state has before it until it returns or completes, from its local variables,
the top of the stack first, and the heap. -/
def stateRank (s : MaroonTaskState) (vars : List MaroonTaskStackEntryValue)
    (heap : MaroonTaskHeap) : ℕ :=
  match s, vars, heap with
  | .completed, _, _ => 1
  | .delayedMessageTaskBegin, _, _ => 3
  | .delayedMessageTaskExecute, _, _ => 2
  | .divisorsTaskBegin, _, .divisors data => 2 * data.n + 3
  | .divisorsTaskIteration, _, .divisors data => 2 * data.i + 2
  | .divisorsPrintAndMoveOn, _, .divisors data => 2 * data.i + 1
  | .fibonacciTaskBegin, _, .fibonacci data => 2 * data.n + 2
  | .fibonacciTaskCalculate, _, .fibonacci data => 2 * (data.n - data.index) + 3
  | .fibonacciTaskStep, _, .fibonacci data => 2 * (data.n - data.index) + 2
  | .fibonacciTaskResult, _, _ => 2
  | .factorialEntry, .factorialInput n :: _, _ => 4 * n + 6
  | .factorialRecursiveCall, .factorialArgument n :: _, _ => 4 * n + 3
  | .factorialRecursionPostWrite, .factorialArgument n :: _, _ => 4 * n + 2
  | .factorialRecursionPostSleep, .factorialArgument n :: _, _ => 4 * n + 1
  | .factorialRecursionPostRecursiveCall, _, _ => 1
  | .factorialDone, _, _ => 2
  | _, _, _ => 0

/-- The most steps that a task with this stack and heap can still take, its last one included. -/
def rank (stack : MaroonTaskStack) (heap : MaroonTaskHeap) : ℕ :=
  match (do
    let (s, entries) ← popState stack
    let (vars, base) ← popVars (maroonTaskStateLocalVarsCount s) entries
    .ok (stateRank s vars heap + framesRank base)) with
  | .ok steps => steps
  | .error _ => 0

theorem rank_top (base : MaroonTaskStack) (s : MaroonTaskState)
    (vals : List MaroonTaskStackEntryValue) (counted : vals.length = maroonTaskStateLocalVarsCount s)
    (heap : MaroonTaskHeap) :
    rank (base ++ (vals.map .value ++ [.state s])) heap =
      stateRank s vals.reverse heap + framesRank base := by
  have hvars := popVars_concat base vals
  rw [counted] at hvars
  simp only [rank, ← List.append_assoc, popState_concat, except_ok_bind, hvars]

theorem framesRank_call (base : MaroonTaskStack) (v : MaroonTaskStackEntryValue) :
    framesRank (base ++ [.value v, .retrn .factorialRecursionPostRecursiveCall]) =
      framesRank base + 1 := by
  simp [framesRank, List.count_append]
  omega

/-- What keeps the counters of a task from coming round: the cursor of the divisors is positive
where it is decremented, and the index of the Fibonacci numbers is below a `u64` where it is
incremented. -/
structure InRange (stack : MaroonTaskStack) (heap : MaroonTaskHeap) : Prop where
  cursor : ∀ data, heap = .divisors data → stack = [.state .divisorsPrintAndMoveOn] → 0 < data.i
  size : ∀ data, heap = .fibonacci data → data.n < u64Size
  index : ∀ data, heap = .fibonacci data → stack = [.state .fibonacciTaskStep] →
    data.index < data.n

theorem inRange_empty (stack : MaroonTaskStack) : InRange stack .empty :=
  ⟨fun _ h => (nomatch h), fun _ h => (nomatch h), fun _ h => (nomatch h)⟩

theorem inRange_divisors {stack : MaroonTaskStack} {data : MaroonTaskHeapDivisors}
    (h : stack = [.state .divisorsPrintAndMoveOn] → 0 < data.i) : InRange stack (.divisors data) :=
  ⟨fun _ heq hstack => by cases heq; exact h hstack, fun _ heq => (nomatch heq),
    fun _ heq => (nomatch heq)⟩

theorem inRange_fibonacci {stack : MaroonTaskStack} {data : MaroonTaskHeapFibonacci}
    (size : data.n < u64Size) (h : stack = [.state .fibonacciTaskStep] → data.index < data.n) :
    InRange stack (.fibonacci data) :=
  ⟨fun _ heq => (nomatch heq), fun _ heq => by cases heq; exact size,
    fun _ heq hstack => by cases heq; exact h hstack⟩

theorem launch_inRange {l : Launch} (h : l.IsU64) : InRange l.stack l.heap := by
  cases l with
  | delay t s => exact inRange_empty _
  | divisors n => exact inRange_divisors (nomatch ·)
  | fibonacci n => exact inRange_fibonacci h (nomatch ·)
  | factorial n => exact inRange_empty _

def Lowers (p : Profile) (steps : ℕ) : Except Panic TaskOutcome → Prop
  | .ok .finished => 0 < steps
  | .ok (.requeued _ next) => InRange next.stack next.heap ∧ rank next.stack next.heap < steps
  | .error e => p.overflowChecks = true ∧ ∃ op, e = .overflow op

theorem lowers_fit {p : Profile} {steps v : ℕ} {op : Arith} {f : ℕ → Except Panic TaskOutcome}
    (h : ∀ r, u64Fit p.overflowChecks v = some r → Lowers p steps (f r)) :
    Lowers p steps (checkedArith op (u64Fit p.overflowChecks v) >>= f) := by
  cases hfit : u64Fit p.overflowChecks v with
  | none => exact ⟨(u64Fit_none_iff.mp hfit).1, op, rfl⟩
  | some r => exact h r hfit

theorem searchDivisor_le (n i : ℕ) : searchDivisor n i ≤ i := by
  induction i with
  | zero => exact Nat.le_refl 0
  | succ i ih =>
    rw [searchDivisor]
    split_ifs
    · exact ih.trans (Nat.le_succ i)
    · exact Nat.le_refl _

theorem CallFrames.pop_rank {base : MaroonTaskStack} (c : CallFrames base) :
    ∃ below r, base = below ++ [.retrn r] ∧ ∀ a,
      rank (below ++ [.value (.factorialReturnValue a), .state r]) .empty = framesRank base := by
  cases c with
  | entry n =>
    exact ⟨[.value (.factorialInput n)], .factorialDone, rfl, fun a => rfl⟩
  | @call base below n =>
    refine ⟨base ++ [.value (.factorialArgument n)], .factorialRecursionPostRecursiveCall,
      by simp, fun a => ?_⟩
    have htop := rank_top base .factorialRecursionPostRecursiveCall
      [.factorialArgument n, .factorialReturnValue a] rfl .empty
    rw [framesRank_call, Nat.add_comm, List.append_assoc]
    exact htop

variable {p : Profile}

section Tasks

variable (ts : LogicalTimeAbsoluteMs)

theorem delay_lowers {s : MaroonTaskState}
    (state : s = .delayedMessageTaskBegin ∨ s = .delayedMessageTaskExecute) (ms : ℕ)
    (msg : String) :
    Lowers p (rank [.value (.delayInputMs ms), .value (.delayInputMessage msg), .state s] .empty)
      (stepTask p ⟨ts, [.value (.delayInputMs ms), .value (.delayInputMessage msg), .state s],
        .empty⟩) := by
  rcases state with rfl | rfl
  · rw [stepTask_delayBegin]
    exact lowers_fit fun wake _ => ⟨inRange_empty _, (by decide : 2 < 3)⟩
  · rw [stepTask_delayExecute]
    exact ⟨inRange_empty _, (by decide : 1 < 2)⟩

theorem divisors_lowers {s : MaroonTaskState}
    (state : s = .divisorsTaskBegin ∨ s = .divisorsTaskIteration ∨ s = .divisorsPrintAndMoveOn)
    (data : MaroonTaskHeapDivisors) (range : InRange [.state s] (.divisors data)) :
    Lowers p (rank [.state s] (.divisors data)) (stepTask p ⟨ts, [.state s], .divisors data⟩) := by
  obtain ⟨n, i⟩ := data
  rcases state with rfl | rfl | rfl
  · rw [stepTask_divisorsBegin]
    exact ⟨inRange_divisors (nomatch ·), (by omega : 2 * n + 2 < 2 * n + 3)⟩
  · rw [stepTask_divisorsIteration]
    have hle := searchDivisor_le n i
    split_ifs with hzero
    · exact ⟨inRange_divisors (nomatch ·), (by omega : 1 < 2 * i + 2)⟩
    · exact lowers_fit fun _ _ => lowers_fit fun _ _ =>
        ⟨inRange_divisors fun _ => Nat.pos_of_ne_zero hzero,
          (by omega : 2 * searchDivisor n i + 1 < 2 * i + 2)⟩
  · have hpos : 0 < i := range.cursor _ rfl rfl
    rw [stepTask_divisorsPrint, checkedArith_ok.mpr (u64Sub_of_le hpos), except_ok_bind]
    exact ⟨inRange_divisors (nomatch ·), (by omega : 2 * (i - 1) + 2 < 2 * i + 1)⟩

theorem fibonacci_lowers {s : MaroonTaskState}
    (state : s = .fibonacciTaskBegin ∨ s = .fibonacciTaskCalculate ∨ s = .fibonacciTaskStep ∨
      s = .fibonacciTaskResult)
    (data : MaroonTaskHeapFibonacci) (range : InRange [.state s] (.fibonacci data)) :
    Lowers p (rank [.state s] (.fibonacci data))
      (stepTask p ⟨ts, [.state s], .fibonacci data⟩) := by
  obtain ⟨n, index, a, b, delayMs⟩ := data
  have size : n < u64Size := range.size _ rfl
  rcases state with rfl | rfl | rfl | rfl
  · rw [stepTask_fibonacciBegin]
    split_ifs with h
    · exact ⟨inRange_fibonacci size (nomatch ·), (by omega : 1 < 2 * n + 2)⟩
    · exact ⟨inRange_fibonacci size (nomatch ·), (by omega : 2 * (n - 1) + 3 < 2 * n + 2)⟩
  · rw [stepTask_fibonacciCalculate]
    split_ifs with h
    · exact ⟨inRange_fibonacci size (nomatch ·), (by omega : 2 < 2 * (n - index) + 3)⟩
    · exact lowers_fit fun _ _ => ⟨inRange_fibonacci size fun _ => Nat.lt_of_not_le h,
        (by omega : 2 * (n - index) + 2 < 2 * (n - index) + 3)⟩
  · have hindex : index < n := range.index _ rfl rfl
    have hfits : u64Add p.overflowChecks index 1 = some (index + 1) := u64Fit_of_lt (by omega)
    rw [stepTask_fibonacciStep, checkedArith_ok.mpr hfits, except_ok_bind]
    exact lowers_fit fun _ _ => lowers_fit fun _ _ => ⟨inRange_fibonacci size (nomatch ·),
      (by omega : 2 * (n - (index + 1)) + 3 < 2 * (n - index) + 2)⟩
  · rw [stepTask_fibonacciResult]
    exact ⟨inRange_fibonacci size (nomatch ·), (by decide : 1 < 2)⟩

/-- A call first goes down to its bottom, with the frames growing by one for each four steps that
the argument has less, and returns through them. -/
theorem factorialCall_lowers {s : MaroonTaskState}
    (state : s = .factorialRecursiveCall ∨ s = .factorialRecursionPostWrite ∨
      s = .factorialRecursionPostSleep)
    {base : MaroonTaskStack} (frames : CallFrames base) (n : ℕ) :
    Lowers p (rank (base ++ [.value (.factorialArgument n), .state s]) .empty)
      (stepTask p ⟨ts, base ++ [.value (.factorialArgument n), .state s], .empty⟩) := by
  have u := frames.untouched p
  have hcall (k : ℕ) : rank (base ++ [.value (.factorialArgument k),
      .state .factorialRecursiveCall]) .empty = 4 * k + 3 + framesRank base :=
    rank_top base _ [.factorialArgument k] rfl .empty
  have hwrite : rank (base ++ [.value (.factorialArgument n),
      .state .factorialRecursionPostWrite]) .empty = 4 * n + 2 + framesRank base :=
    rank_top base _ [.factorialArgument n] rfl .empty
  have hsleep : rank (base ++ [.value (.factorialArgument n),
      .state .factorialRecursionPostSleep]) .empty = 4 * n + 1 + framesRank base :=
    rank_top base _ [.factorialArgument n] rfl .empty
  rcases state with rfl | rfl | rfl
  · rw [stepTask_factorialCall ts _ n u, hcall]
    exact ⟨inRange_empty _, by simp only [hwrite]; omega⟩
  · rw [stepTask_factorialPostWrite ts _ n u, hwrite]
    exact lowers_fit fun _ _ => lowers_fit fun _ _ =>
      ⟨inRange_empty _, by simp only [hsleep]; omega⟩
  · rw [hsleep]
    by_cases hn : 1 < n
    · have hrecurse := rank_top (base ++ [.value (.factorialArgument n),
        .retrn .factorialRecursionPostRecursiveCall]) .factorialRecursiveCall
        [.factorialArgument (n - 1)] rfl .empty
      rw [stepTask_factorialRecurse ts _ n u hn]
      refine ⟨inRange_empty _, hrecurse.trans_lt ?_⟩
      rw [framesRank_call]
      have hcost : stateRank .factorialRecursiveCall [.factorialArgument (n - 1)] .empty =
        4 * (n - 1) + 3 := rfl
      rw [List.reverse_singleton, hcost]
      omega
    · obtain ⟨below, r, rfl, hreturn⟩ := frames.pop_rank
      rw [stepTask_factorialBottom ts _ n u (Nat.not_lt.mp hn)]
      exact ⟨inRange_empty _, by simp only [hreturn]; omega⟩

theorem factorialResult_lowers {base : MaroonTaskStack} (frames : CallFrames base) (n a : ℕ) :
    Lowers p (rank (base ++ [.value (.factorialArgument n), .value (.factorialReturnValue a),
        .state .factorialRecursionPostRecursiveCall]) .empty)
      (stepTask p ⟨ts, base ++ [.value (.factorialArgument n), .value (.factorialReturnValue a),
        .state .factorialRecursionPostRecursiveCall], .empty⟩) := by
  have u := frames.untouched p
  have hresult : rank (base ++ [.value (.factorialArgument n), .value (.factorialReturnValue a),
      .state .factorialRecursionPostRecursiveCall]) .empty = 1 + framesRank base :=
    rank_top base .factorialRecursionPostRecursiveCall
      [.factorialArgument n, .factorialReturnValue a] rfl .empty
  rw [hresult]
  obtain ⟨below, r, rfl, hreturn⟩ := frames.pop_rank
  rw [stepTask_factorialMultiply ts _ n a u]
  exact lowers_fit fun v _ => ⟨inRange_empty _, by simp only [hreturn]; omega⟩

end Tasks

theorem Shaped.rank_pos {stack : MaroonTaskStack} {heap : MaroonTaskHeap}
    (h : Shaped stack heap) : 0 < rank stack heap := by
  cases h with
  | completed heap => exact Nat.one_pos
  | delay state ms msg => rcases state with rfl | rfl <;> exact Nat.succ_pos _
  | divisors state data => rcases state with rfl | rfl | rfl <;> exact Nat.succ_pos _
  | fibonacci state data => rcases state with rfl | rfl | rfl | rfl <;> exact Nat.succ_pos _
  | factorialEntry n => exact Nat.succ_pos _
  | @factorialCall s state base frames n =>
    have htop (counted : 1 = maroonTaskStateLocalVarsCount s) :
        rank (base ++ [.value (.factorialArgument n), .state s]) .empty =
          stateRank s [.factorialArgument n] .empty + framesRank base :=
      rank_top base s [.factorialArgument n] counted .empty
    rcases state with rfl | rfl | rfl <;> rw [htop rfl] <;>
      exact Nat.add_pos_left (Nat.succ_pos _) _
  | @factorialResult base frames n a =>
    have htop := rank_top base .factorialRecursionPostRecursiveCall
      [.factorialArgument n, .factorialReturnValue a] rfl .empty
    exact htop ▸ Nat.add_pos_left Nat.one_pos _
  | factorialDone n a => exact Nat.succ_pos _

/-- Every step of a task that a launch can lead to lowers its rank, at whatever time. -/
theorem stepTask_lowers (p : Profile) (ts : LogicalTimeAbsoluteMs) {stack : MaroonTaskStack}
    {heap : MaroonTaskHeap} (shaped : Shaped stack heap) (range : InRange stack heap) :
    Lowers p (rank stack heap) (stepTask p ⟨ts, stack, heap⟩) := by
  cases shaped with
  | completed heap =>
    rw [stepTask_completed]
    exact Nat.one_pos
  | delay state ms msg => exact delay_lowers ts state ms msg
  | divisors state data => exact divisors_lowers ts state data range
  | fibonacci state data => exact fibonacci_lowers ts state data range
  | factorialEntry n =>
    have hcall := rank_top [.value (.factorialInput n), .retrn .factorialDone]
      .factorialRecursiveCall [.factorialArgument n] rfl .empty
    rw [stepTask_factorialEntry]
    refine ⟨inRange_empty _, hcall.trans_lt ?_⟩
    exact (by omega : 4 * n + 3 + 2 < 4 * n + 6)
  | factorialCall state frames n => exact factorialCall_lowers ts state frames n
  | factorialResult frames n a => exact factorialResult_lowers ts frames n a
  | factorialDone n a =>
    rw [stepTask_factorialDone]
    exact ⟨inRange_empty _, (by decide : 1 < 2)⟩

end RustExperiments.Maroon
