/- module: RustExperiments/Maroon/Typing
   digest: Stacks of launched tasks are one state over typed return frames. -/

import RustExperiments.Maroon.Steps

set_option autoImplicit false
set_option relaxedAutoImplicit false

namespace RustExperiments.Maroon

open RustExperiments.Lib

inductive ValueKind where
  | delayInputMs
  | delayInputMessage
  | factorialInput
  | factorialArgument
  | factorialReturnValue
  deriving DecidableEq, Repr

def MaroonTaskStackEntryValue.kind : MaroonTaskStackEntryValue → ValueKind
  | .delayInputMs _ => .delayInputMs
  | .delayInputMessage _ => .delayInputMessage
  | .factorialInput _ => .factorialInput
  | .factorialArgument _ => .factorialArgument
  | .factorialReturnValue _ => .factorialReturnValue

/-- The kinds that `globalStep` matches for a state, the top of the stack first. -/
def localKinds : MaroonTaskState → List ValueKind
  | .delayedMessageTaskBegin => [.delayInputMessage, .delayInputMs]
  | .delayedMessageTaskExecute => [.delayInputMessage, .delayInputMs]
  | .factorialEntry => [.factorialInput]
  | .factorialRecursiveCall => [.factorialArgument]
  | .factorialRecursionPostWrite => [.factorialArgument]
  | .factorialRecursionPostSleep => [.factorialArgument]
  | .factorialRecursionPostRecursiveCall => [.factorialReturnValue, .factorialArgument]
  | .factorialDone => [.factorialReturnValue, .factorialInput]
  | _ => []

/-- The heap variant that a state expects; `Completed` expects nothing. -/
def HeapFor : MaroonTaskState → MaroonTaskHeap → Prop
  | .completed, _ => True
  | .divisorsTaskBegin, heap => ∃ data, heap = .divisors data
  | .divisorsTaskIteration, heap => ∃ data, heap = .divisors data
  | .divisorsPrintAndMoveOn, heap => ∃ data, heap = .divisors data
  | .fibonacciTaskBegin, heap => ∃ data, heap = .fibonacci data
  | .fibonacciTaskCalculate, heap => ∃ data, heap = .fibonacci data
  | .fibonacciTaskStep, heap => ∃ data, heap = .fibonacci data
  | .fibonacciTaskResult, heap => ∃ data, heap = .fibonacci data
  | _, heap => heap = .empty

/-- The values under `Retrn(R)` are as many as declared, and with a return value on top of
them they are what `R` matches. -/
def FrameTyped (r : MaroonTaskState) (vals : List MaroonTaskStackEntryValue) : Prop :=
  vals.length = maroonTaskStateReturnLocalVarsCount r ∧
    localKinds r = .factorialReturnValue :: (vals.map MaroonTaskStackEntryValue.kind).reverse

/-- The typing discipline of a task: one state over its local variables over return frames. -/
def WellTyped (stack : MaroonTaskStack) (heap : MaroonTaskHeap) : Prop :=
  ∃ (base : MaroonTaskStack) (s : MaroonTaskState) (vals : List MaroonTaskStackEntryValue),
    stack = base ++ vals.map .value ++ [.state s] ∧
    vals.length = maroonTaskStateLocalVarsCount s ∧
    (vals.map MaroonTaskStackEntryValue.kind).reverse = localKinds s ∧
    Frames FrameTyped base ∧ HeapFor s heap ∧
    (s = .completed → stack = [.state .completed])

/-- The frames beneath a running factorial call: the launching frame at the bottom and one
frame for each call that is waiting for its result. -/
inductive CallFrames : MaroonTaskStack → Prop where
  | entry (n : ℕ) : CallFrames [.value (.factorialInput n), .retrn .factorialDone]
  | call {base : MaroonTaskStack} (below : CallFrames base) (n : ℕ) :
      CallFrames (base ++ [.value (.factorialArgument n),
        .retrn .factorialRecursionPostRecursiveCall])

/-- The stacks and heaps that launched tasks go through. -/
inductive Shaped : MaroonTaskStack → MaroonTaskHeap → Prop where
  | completed (heap : MaroonTaskHeap) : Shaped [.state .completed] heap
  | delay {s : MaroonTaskState}
      (state : s = .delayedMessageTaskBegin ∨ s = .delayedMessageTaskExecute)
      (ms : ℕ) (msg : String) :
      Shaped [.value (.delayInputMs ms), .value (.delayInputMessage msg), .state s] .empty
  | divisors {s : MaroonTaskState}
      (state : s = .divisorsTaskBegin ∨ s = .divisorsTaskIteration ∨ s = .divisorsPrintAndMoveOn)
      (data : MaroonTaskHeapDivisors) : Shaped [.state s] (.divisors data)
  | fibonacci {s : MaroonTaskState}
      (state : s = .fibonacciTaskBegin ∨ s = .fibonacciTaskCalculate ∨ s = .fibonacciTaskStep ∨
        s = .fibonacciTaskResult)
      (data : MaroonTaskHeapFibonacci) : Shaped [.state s] (.fibonacci data)
  | factorialEntry (n : ℕ) : Shaped [.value (.factorialInput n), .state .factorialEntry] .empty
  | factorialCall {s : MaroonTaskState}
      (state : s = .factorialRecursiveCall ∨ s = .factorialRecursionPostWrite ∨
        s = .factorialRecursionPostSleep)
      {base : MaroonTaskStack} (frames : CallFrames base) (n : ℕ) :
      Shaped (base ++ [.value (.factorialArgument n), .state s]) .empty
  | factorialResult {base : MaroonTaskStack} (frames : CallFrames base) (n a : ℕ) :
      Shaped (base ++ [.value (.factorialArgument n), .value (.factorialReturnValue a),
        .state .factorialRecursionPostRecursiveCall]) .empty
  | factorialDone (n a : ℕ) :
      Shaped [.value (.factorialInput n), .value (.factorialReturnValue a),
        .state .factorialDone] .empty

theorem CallFrames.typed {base : MaroonTaskStack} (c : CallFrames base) :
    Frames FrameTyped base := by
  induction c with
  | entry n => exact Frames.pushValue .nil ⟨rfl, rfl⟩
  | call _ n ih =>
    exact ih.pushValue ⟨rfl, rfl⟩

theorem CallFrames.untouched (p : Profile) {base : MaroonTaskStack} (c : CallFrames base) :
    Untouched p base :=
  fun _ => c.typed.mono fun _ _ h => h.1

theorem launch_shaped (l : Launch) : Shaped l.stack l.heap := by
  cases l with
  | delay t s => exact .delay (Or.inl rfl) t s
  | divisors n => exact .divisors (Or.inl rfl) ⟨n, n⟩
  | fibonacci n => exact .fibonacci (Or.inl rfl) ⟨n, 0, 0, 0, 0⟩
  | factorial n => exact .factorialEntry n

theorem Shaped.wellTyped {stack : MaroonTaskStack} {heap : MaroonTaskHeap}
    (h : Shaped stack heap) : WellTyped stack heap := by
  cases h with
  | completed heap => exact ⟨[], _, [], rfl, rfl, rfl, .nil, trivial, fun _ => rfl⟩
  | delay state ms msg =>
    refine ⟨[], _, [.delayInputMs ms, .delayInputMessage msg], rfl, ?_⟩
    rcases state with rfl | rfl <;> exact ⟨rfl, rfl, .nil, rfl, nofun⟩
  | divisors state data =>
    refine ⟨[], _, [], rfl, ?_⟩
    rcases state with rfl | rfl | rfl <;> exact ⟨rfl, rfl, .nil, ⟨data, rfl⟩, nofun⟩
  | fibonacci state data =>
    refine ⟨[], _, [], rfl, ?_⟩
    rcases state with rfl | rfl | rfl | rfl <;> exact ⟨rfl, rfl, .nil, ⟨data, rfl⟩, nofun⟩
  | factorialEntry n =>
    exact ⟨[], _, [.factorialInput n], rfl, rfl, rfl, .nil, rfl, nofun⟩
  | @factorialCall s state base frames n =>
    refine ⟨base, s, [.factorialArgument n], by simp, ?_⟩
    rcases state with rfl | rfl | rfl <;> exact ⟨rfl, rfl, frames.typed, rfl, nofun⟩
  | @factorialResult base frames n a =>
    exact ⟨base, .factorialRecursionPostRecursiveCall,
      [.factorialArgument n, .factorialReturnValue a], by simp, rfl, rfl, frames.typed, rfl,
      nofun⟩
  | factorialDone n a =>
    exact ⟨[], _, [.factorialInput n, .factorialReturnValue a], rfl, rfl, rfl, .nil, rfl, nofun⟩

def StepsShaped (r : Except Panic TaskOutcome) : Prop :=
  match r with
  | .ok .finished => True
  | .ok (.requeued _ next) => Shaped next.stack next.heap
  | .error e => ∃ op, e = .overflow op

theorem stepsShaped_arith {op : Arith} {x : Option ℕ} {f : ℕ → Except Panic TaskOutcome}
    (h : ∀ v, StepsShaped (f v)) : StepsShaped (checkedArith op x >>= f) := by
  cases x with
  | none => exact ⟨op, rfl⟩
  | some v => exact h v

/-- A return into the top frame of a factorial stack finds the values that the frame's state
matches, whichever frame it is. -/
theorem CallFrames.pop {base : MaroonTaskStack} (c : CallFrames base) :
    ∃ below r, base = below ++ [.retrn r] ∧
      ∀ a, Shaped (below ++ [.value (.factorialReturnValue a), .state r]) .empty := by
  cases c with
  | entry n => exact ⟨[.value (.factorialInput n)], _, rfl, fun a => .factorialDone n a⟩
  | @call base below n =>
    refine ⟨base ++ [.value (.factorialArgument n)], .factorialRecursionPostRecursiveCall,
      by simp, fun a => ?_⟩
    simpa using Shaped.factorialResult below n a

theorem stepTask_shaped (p : Profile) (ts : LogicalTimeAbsoluteMs) {stack : MaroonTaskStack}
    {heap : MaroonTaskHeap} (h : Shaped stack heap) : StepsShaped (stepTask p ⟨ts, stack, heap⟩) := by
  cases h with
  | completed heap => rw [stepTask_completed]; trivial
  | delay state ms msg =>
    rcases state with rfl | rfl
    · rw [stepTask_delayBegin]
      exact stepsShaped_arith fun wake => .delay (Or.inr rfl) ms msg
    · rw [stepTask_delayExecute]
      exact .completed _
  | divisors state data =>
    rcases state with rfl | rfl | rfl
    · rw [stepTask_divisorsBegin]
      exact .divisors (by simp) _
    · rw [stepTask_divisorsIteration]
      split_ifs
      · exact .completed _
      · exact stepsShaped_arith fun _ => stepsShaped_arith fun _ => .divisors (by simp) _
    · rw [stepTask_divisorsPrint]
      exact stepsShaped_arith fun _ => .divisors (by simp) _
  | fibonacci state data =>
    rcases state with rfl | rfl | rfl | rfl
    · rw [stepTask_fibonacciBegin]
      split_ifs
      · exact .completed _
      · exact .fibonacci (by simp) _
    · rw [stepTask_fibonacciCalculate]
      split_ifs
      · exact .fibonacci (by simp) _
      · exact stepsShaped_arith fun _ => .fibonacci (by simp) _
    · rw [stepTask_fibonacciStep]
      exact stepsShaped_arith fun _ => stepsShaped_arith fun _ => stepsShaped_arith fun _ =>
        .fibonacci (by simp) _
    · rw [stepTask_fibonacciResult]
      exact .completed _
  | factorialEntry n =>
    rw [stepTask_factorialEntry]
    exact .factorialCall (Or.inl rfl) (.entry n) n
  | factorialCall state frames n =>
    have u := frames.untouched p
    rcases state with rfl | rfl | rfl
    · rw [stepTask_factorialCall ts _ n u]
      exact .factorialCall (by simp) frames n
    · rw [stepTask_factorialPostWrite ts _ n u]
      exact stepsShaped_arith fun _ => stepsShaped_arith fun _ =>
        .factorialCall (by simp) frames n
    · by_cases hn : 1 < n
      · rw [stepTask_factorialRecurse ts _ n u hn]
        exact .factorialCall (by simp) (.call frames n) (n - 1)
      · obtain ⟨below, r, rfl, hreturn⟩ := frames.pop
        rw [stepTask_factorialBottom ts _ n u (Nat.not_lt.mp hn)]
        exact hreturn 1
  | factorialResult frames n a =>
    have u := frames.untouched p
    obtain ⟨below, r, rfl, hreturn⟩ := frames.pop
    rw [stepTask_factorialMultiply ts _ n a u]
    exact stepsShaped_arith fun v => hreturn v
  | factorialDone n a =>
    rw [stepTask_factorialDone]
    exact .completed _

variable {W : Type} {H : PendingHeap} {p : Profile}

/-- What launches start with and steps keep holds of every task of a reachable runtime. -/
theorem tasks_keep {Inv : MaroonTaskStack → MaroonTaskHeap → Prop}
    (preserved : ∀ c written next, Inv c.stack c.heap →
      stepTask p c = .ok (.requeued written next) → Inv next.stack next.heap)
    {inputs : List (Input W)}
    (launched : ∀ writer l ts, .schedule writer l ts ∈ inputs → Inv l.stack l.heap)
    {fsm : MaroonRuntime W H} {events : List (Event W)}
    (run : (runtime p W H).run (MaroonRuntime.new W H) inputs = some (fsm, events)) :
    ∀ taskId task, fsm.activeTasks.lookup taskId = some task →
      Inv task.maroonStack task.maroonHeap := by
  refine Machine.run_invariant (runtime p W H) (fun is _ fsm =>
    (∀ writer l ts, .schedule writer l ts ∈ is → Inv l.stack l.heap) → ∀ taskId task,
      fsm.activeTasks.lookup taskId = some task → Inv task.maroonStack task.maroonHeap)
    (fun _ _ _ h => by simp [MaroonRuntime.new] at h) ?_ run launched
  intro is os s i t o _ inv hstep launched taskId task hlookup
  have hold := inv fun writer l ts hmem => launched writer l ts (List.mem_append_left _ hmem)
  cases transition_of_step hstep with
  | scheduled writer l ts next _ =>
    rw [Table.lookup_insert_ite] at hlookup
    split_ifs at hlookup with hid
    · cases hlookup
      exact launched writer l ts (List.mem_append_right _ (List.mem_singleton_self _))
    · exact hold taskId task hlookup
  | idle => exact hold taskId task hlookup
  | finished cutoff writeResult t pending stepped popped due present step =>
    rw [Table.lookup_erase_ite] at hlookup
    split_ifs at hlookup with hid
    exact hold taskId task hlookup
  | requeued cutoff writeResult t pending stepped written next popped due present step =>
    rw [Table.lookup_insert_ite] at hlookup
    split_ifs at hlookup with hid
    · cases hlookup
      exact preserved _ _ _ (hold _ _ present) step
    · exact hold taskId task hlookup

theorem tasks_shaped {inputs : List (Input W)} {fsm : MaroonRuntime W H}
    {events : List (Event W)}
    (run : (runtime p W H).run (MaroonRuntime.new W H) inputs = some (fsm, events)) :
    ∀ taskId task, fsm.activeTasks.lookup taskId = some task →
      Shaped task.maroonStack task.maroonHeap := by
  refine tasks_keep (fun c written next h step => ?_) (fun _ l _ _ => launch_shaped l) run
  have hshaped := stepTask_shaped p c.ts h
  rw [step] at hshaped
  exact hshaped

theorem executeOperation_error (fsm : MaroonRuntime W H) {taskId : MaroonTaskId}
    {ts : LogicalTimeAbsoluteMs} {writeResult : Except String Unit} {task : MaroonTask W}
    {panic : Panic} (present : fsm.activeTasks.lookup taskId = some task)
    (shaped : Shaped task.maroonStack task.maroonHeap)
    (herror : executeOperation p fsm taskId ts writeResult = .error panic) :
    ∃ op, panic = .overflow op := by
  rw [executeOperation_eq p fsm _ _ present] at herror
  have hsteps := stepTask_shaped p ts shaped
  cases hsolo : stepTask p ⟨ts, task.maroonStack, task.maroonHeap⟩ with
  | ok outcome => simp [hsolo, Except.map] at herror
  | error e =>
    rw [hsolo] at hsteps herror
    obtain ⟨op, rfl⟩ := hsteps
    cases herror
    exact ⟨op, rfl⟩

/-- In every reachable state every task is well typed, the validator accepts its stack, and
the only panics left for the next executor iteration are arithmetic overflows and a queued
operation without its task. -/
theorem reachable_tasks_well_typed {inputs : List (Input W)} {fsm : MaroonRuntime W H}
    {events : List (Event W)}
    (run : (runtime p W H).run (MaroonRuntime.new W H) inputs = some (fsm, events)) :
    (∀ taskId task, fsm.activeTasks.lookup taskId = some task →
      WellTyped task.maroonStack task.maroonHeap ∧
      ∀ q : Profile, debugValidateMaroonStack q task.maroonStack = .ok ()) ∧
    (∀ cutoff writeResult panic,
      executePendingOperationsIteration p fsm cutoff writeResult = .error panic →
        panic.isShape = false) := by
  have shaped := tasks_shaped run
  constructor
  · intro taskId task hlookup
    have hwell := (shaped taskId task hlookup).wellTyped
    refine ⟨hwell, fun q => ?_⟩
    obtain ⟨base, s, vals, hstack, hcount, _, hframes, _⟩ := hwell
    rw [hstack]
    exact debugValidate_ok q (hframes.mono fun _ _ h => h.1) hcount
  · intro cutoff writeResult panic herror
    rcases iteration_cases p fsm cutoff writeResult with ⟨_, heq⟩ | ⟨t, pending, _, _, heq⟩
    · rw [heq] at herror
      cases herror
    · rw [heq] at herror
      cases hlookup : fsm.activeTasks.lookup t.taskId with
      | none =>
        simp only [executeOperation, hlookup, Except.error.injEq] at herror
        subst herror
        rfl
      | some task =>
        obtain ⟨op, rfl⟩ := executeOperation_error { fsm with pendingOperations := pending } hlookup
          (shaped _ _ hlookup) herror
        rfl

theorem interleaved_tasks_well_typed : ∃ fsm events,
    (runtime ⟨false, true⟩ String .list).run (MaroonRuntime.new String .list) interleavedInputs =
      some (fsm, events) ∧
    (∀ taskId task, fsm.activeTasks.lookup taskId = some task →
      WellTyped task.maroonStack task.maroonHeap) ∧
    ∀ cutoff writeResult panic,
      executePendingOperationsIteration ⟨false, true⟩ fsm cutoff writeResult = .error panic →
        panic.isShape = false := by
  obtain ⟨fsm, events, run⟩ := interleavedInputs_run
  have h := reachable_tasks_well_typed run
  exact ⟨fsm, events, run, fun taskId task present => (h.1 taskId task present).1, h.2⟩

end RustExperiments.Maroon
