/- module: RustExperiments/Maroon/Solo
   digest: The step of one task as a function of that task alone, and the runtime over it. -/

import Mathlib.Data.List.Infix
import RustExperiments.Lib.Except
import RustExperiments.Maroon.Runtime

set_option autoImplicit false
set_option relaxedAutoImplicit false

namespace RustExperiments.Maroon

open RustExperiments.Lib

/-- Everything that a step of a task depends on: its queued timestamp, stack and heap. -/
structure Activation where
  ts : LogicalTimeAbsoluteMs
  stack : MaroonTaskStack
  heap : MaroonTaskHeap
  deriving DecidableEq, Repr

/-- What one step makes of its own task. -/
inductive TaskOutcome where
  | finished
  | requeued (written : Option String) (next : Activation)
  deriving DecidableEq, Repr

/-- The result branches of the executor, restricted to the task: `entries` is the stack
without the popped state and its local variables. -/
def finishTask (p : Profile) (ts : LogicalTimeAbsoluteMs) (entries : MaroonTaskStack)
    (heap : MaroonTaskHeap) : MaroonStepResult → Except Panic TaskOutcome
  | .done => .ok .finished
  | .sleep sleepMs newStates => do
    debugValidateMaroonStack p (entries ++ newStates)
    let wakeTimestamp ← checkedArith .add (u64Add p.overflowChecks ts sleepMs)
    .ok (.requeued none ⟨wakeTimestamp, entries ++ newStates, heap⟩)
  | .write text newStates => do
    debugValidateMaroonStack p (entries ++ newStates)
    .ok (.requeued (some text) ⟨ts, entries ++ newStates, heap⟩)
  | .next newStates => do
    debugValidateMaroonStack p (entries ++ newStates)
    .ok (.requeued none ⟨ts, entries ++ newStates, heap⟩)
  | .return_ retval =>
    match vecPop entries with
    | none => .error .nowhereToReturn
    | some (.retrn nextState, entries) =>
      .ok (.requeued none ⟨ts, entries ++ [.value retval] ++ [.state nextState], heap⟩)
    | some _ => .error .notReturningToState

/-- The executor iteration restricted to the task that it steps. -/
def stepTask (p : Profile) (c : Activation) : Except Panic TaskOutcome := do
  debugValidateMaroonStack p c.stack
  let (currentState, entries) ← popState c.stack
  let (vars, entries) ← popVars (maroonTaskStateLocalVarsCount currentState) entries
  let (stepResult, heap) ← globalStep p currentState vars c.heap
  finishTask p c.ts entries heap stepResult

theorem checkedArith_ok {α : Type} {op : Arith} {x : Option α} {a : α} :
    checkedArith op x = .ok a ↔ x = some a := by
  cases x <;> simp [checkedArith]

theorem finishTask_requeued {p : Profile} {ts : LogicalTimeAbsoluteMs} {entries : MaroonTaskStack}
    {heap : MaroonTaskHeap} {stepResult : MaroonStepResult} {written : Option String}
    {next : Activation}
    (h : finishTask p ts entries heap stepResult = .ok (.requeued written next)) :
    next.ts = ts ∨ written = none ∧ ∃ sleepMs newStates, stepResult = .sleep sleepMs newStates ∧
      u64Add p.overflowChecks ts sleepMs = some next.ts := by
  cases stepResult with
  | done => simp [finishTask] at h
  | sleep sleepMs newStates =>
    simp only [finishTask, except_bind_ok, checkedArith_ok] at h
    obtain ⟨_, _, wake, hwake, heq⟩ := h
    cases heq
    exact Or.inr ⟨rfl, sleepMs, newStates, rfl, hwake⟩
  | write text newStates =>
    simp only [finishTask, except_bind_ok] at h
    obtain ⟨_, _, heq⟩ := h
    cases heq
    exact Or.inl rfl
  | next newStates =>
    simp only [finishTask, except_bind_ok] at h
    obtain ⟨_, _, heq⟩ := h
    cases heq
    exact Or.inl rfl
  | return_ retval =>
    simp only [finishTask] at h
    split at h
    · cases h
    · cases h
      exact Or.inl rfl
    · cases h

theorem stepTask_ts {p : Profile} {c next : Activation} {written : Option String}
    (h : stepTask p c = .ok (.requeued written next)) :
    next.ts = c.ts ∨ written = none ∧ ∃ sleepMs, u64Add p.overflowChecks c.ts sleepMs =
      some next.ts := by
  simp only [stepTask, except_bind_ok] at h
  obtain ⟨_, _, ⟨_, entries⟩, _, ⟨_, entries'⟩, _, ⟨stepResult, heap⟩, _, hfinish⟩ := h
  rcases finishTask_requeued hfinish with hsame | ⟨hsilent, sleepMs, _, _, hwake⟩
  · exact Or.inl hsame
  · exact Or.inr ⟨hsilent, sleepMs, hwake⟩

variable {W : Type} {H : PendingHeap}

def settle (fsm : MaroonRuntime W H) (taskId : MaroonTaskId) (ts : LogicalTimeAbsoluteMs)
    (task : MaroonTask W) : TaskOutcome → MaroonRuntime W H × Event W
  | .finished =>
    ({ fsm with activeTasks := fsm.activeTasks.erase taskId }, .executed taskId ts none true)
  | .requeued written next =>
    ({ fsm with
        activeTasks := fsm.activeTasks.insert taskId
          { task with maroonStack := next.stack, maroonHeap := next.heap }
        pendingOperations := H.push fsm.pendingOperations ⟨next.ts, taskId⟩ },
      .executed taskId ts (written.map fun text => (task.writer, text)) false)

/-- The five result branches of the executor all do what `settle` does: each of them puts the
task back into both collections, and `Done` into neither. -/
theorem executeOperation_eq (p : Profile) (fsm : MaroonRuntime W H) {taskId : MaroonTaskId}
    (ts : LogicalTimeAbsoluteMs) (writeResult : Except String Unit) {task : MaroonTask W}
    (present : fsm.activeTasks.lookup taskId = some task) :
    executeOperation p fsm taskId ts writeResult =
      (stepTask p ⟨ts, task.maroonStack, task.maroonHeap⟩).map (settle fsm taskId ts task) := by
  simp only [executeOperation, present, stepTask]
  cases debugValidateMaroonStack p task.maroonStack with
  | error e => rfl
  | ok _ =>
  cases hstate : popState task.maroonStack with
  | error e => rfl
  | ok se =>
  obtain ⟨currentState, entries⟩ := se
  cases hvars : popVars (maroonTaskStateLocalVarsCount currentState) entries with
  | error e => simp [hvars, Except.map]
  | ok ve =>
  obtain ⟨vars, entries'⟩ := ve
  cases hstep : globalStep p currentState vars task.maroonHeap with
  | error e => simp [hvars, hstep, Except.map]
  | ok rh =>
  obtain ⟨stepResult, heap⟩ := rh
  simp only [hvars, hstep, except_ok_bind, finishTask]
  cases stepResult with
  | done => simp [Except.map, settle, Table.erase_erase_self]
  | sleep sleepMs newStates =>
    cases hv : debugValidateMaroonStack p (entries' ++ newStates) with
    | error e => simp [hv, Except.map]
    | ok _ =>
      cases hw : checkedArith .add (u64Add p.overflowChecks ts sleepMs) with
      | error e => simp [hv, hw, Except.map]
      | ok wake => simp [hv, hw, Except.map, settle, Table.insert_erase_self]
  | write text newStates =>
    cases hv : debugValidateMaroonStack p (entries' ++ newStates) with
    | error e => simp [hv, Except.map]
    | ok _ => simp [hv, Except.map, settle, Table.insert_erase_self]
  | next newStates =>
    cases hv : debugValidateMaroonStack p (entries' ++ newStates) with
    | error e => simp [hv, Except.map]
    | ok _ => simp [hv, Except.map, settle, Table.insert_erase_self]
  | return_ retval =>
    cases vecPop entries' with
    | none => simp [Except.map]
    | some popped =>
      obtain ⟨entry, entries''⟩ := popped
      cases entry with
      | state s => simp [Except.map]
      | value v => simp [Except.map]
      | retrn nextState => simp [Except.map, settle, Table.insert_erase_self]

def Launch.stack : Launch → MaroonTaskStack
  | .delay t s =>
    [.value (.delayInputMs t), .value (.delayInputMessage s), .state .delayedMessageTaskBegin]
  | .divisors _ => [.state .divisorsTaskBegin]
  | .fibonacci _ => [.state .fibonacciTaskBegin]
  | .factorial n => [.value (.factorialInput n), .state .factorialEntry]

def Launch.heap : Launch → MaroonTaskHeap
  | .delay _ _ => .empty
  | .divisors n => .divisors ⟨n, n⟩
  | .fibonacci n => .fibonacci ⟨n, 0, 0, 0, 0⟩
  | .factorial _ => .empty

def Launch.description : Launch → String
  | .delay t s => s!"Delayed by {t}ms: `{s}`."
  | .divisors n => s!"Divisors of {n}"
  | .fibonacci n => s!"Fibonacci number {n}"
  | .factorial n => s!"Factorial of {n}"

/-- The activation in which a launched task waits for its first step. -/
def Launch.activation (l : Launch) (ts : LogicalTimeAbsoluteMs) : Activation :=
  ⟨ts, l.stack, l.heap⟩

theorem launchHandlerWs_eq (p : Profile) (fsm : MaroonRuntime W H) (writer : W)
    (ts : LogicalTimeAbsoluteMs) (l : Launch) :
    launchHandlerWs p fsm writer ts l =
      schedule p fsm writer l.stack l.heap ts l.description := by
  cases l <;> rfl

/-- Everything that one input can do to the runtime. -/
inductive Transition (p : Profile) (fsm : MaroonRuntime W H) :
    Input W → MaroonRuntime W H → List (Event W) → Prop where
  | scheduled (writer : W) (l : Launch) (ts : LogicalTimeAbsoluteMs) (next : ℕ)
      (advanced : u64Add p.overflowChecks fsm.taskIdGenerator.nextTaskId 1 = some next) :
      Transition p fsm (.schedule writer l ts)
        ⟨⟨next⟩, H.push fsm.pendingOperations ⟨ts, fsm.taskIdGenerator.nextTaskId⟩,
          fsm.activeTasks.insert fsm.taskIdGenerator.nextTaskId
            ⟨l.description, writer, l.stack, l.heap⟩⟩
        [.scheduled fsm.taskIdGenerator.nextTaskId writer l ts]
  | idle (cutoff : LogicalTimeAbsoluteMs) (writeResult : Except String Unit)
      (nothingDue : ∀ t ∈ H.elems fsm.pendingOperations, cutoff < t.scheduledTimestamp) :
      Transition p fsm (.iterate cutoff writeResult) fsm [.idle]
  | finished (cutoff : LogicalTimeAbsoluteMs) (writeResult : Except String Unit)
      (t : TimestampedMaroonTask) (pending : H.Carrier) (task : MaroonTask W)
      (popped : H.pop fsm.pendingOperations = some (t, pending))
      (due : t.scheduledTimestamp ≤ cutoff)
      (present : fsm.activeTasks.lookup t.taskId = some task)
      (step : stepTask p ⟨t.scheduledTimestamp, task.maroonStack, task.maroonHeap⟩ =
        .ok .finished) :
      Transition p fsm (.iterate cutoff writeResult)
        ⟨fsm.taskIdGenerator, pending, fsm.activeTasks.erase t.taskId⟩
        [.executed t.taskId t.scheduledTimestamp none true]
  | requeued (cutoff : LogicalTimeAbsoluteMs) (writeResult : Except String Unit)
      (t : TimestampedMaroonTask) (pending : H.Carrier) (task : MaroonTask W)
      (written : Option String) (next : Activation)
      (popped : H.pop fsm.pendingOperations = some (t, pending))
      (due : t.scheduledTimestamp ≤ cutoff)
      (present : fsm.activeTasks.lookup t.taskId = some task)
      (step : stepTask p ⟨t.scheduledTimestamp, task.maroonStack, task.maroonHeap⟩ =
        .ok (.requeued written next)) :
      Transition p fsm (.iterate cutoff writeResult)
        ⟨fsm.taskIdGenerator, H.push pending ⟨next.ts, t.taskId⟩,
          fsm.activeTasks.insert t.taskId
            { task with maroonStack := next.stack, maroonHeap := next.heap }⟩
        [.executed t.taskId t.scheduledTimestamp (written.map fun text => (task.writer, text))
          false]

/-- An executor iteration either finds nothing due or executes the popped operation. -/
theorem iteration_cases (p : Profile) (fsm : MaroonRuntime W H) (cutoff : LogicalTimeAbsoluteMs)
    (writeResult : Except String Unit) :
    ((∀ t ∈ H.elems fsm.pendingOperations, cutoff < t.scheduledTimestamp) ∧
      executePendingOperationsIteration p fsm cutoff writeResult = .ok (fsm, .idle)) ∨
    ∃ t pending, H.pop fsm.pendingOperations = some (t, pending) ∧
      t.scheduledTimestamp ≤ cutoff ∧
      executePendingOperationsIteration p fsm cutoff writeResult =
        executeOperation p { fsm with pendingOperations := pending } t.taskId
          t.scheduledTimestamp writeResult := by
  unfold executePendingOperationsIteration
  rw [H.peek_eq]
  cases hpop : H.pop fsm.pendingOperations with
  | none =>
    left
    simp [H.pop_none _ hpop]
  | some popped =>
    obtain ⟨t, pending⟩ := popped
    by_cases hdue : t.scheduledTimestamp ≤ cutoff
    · exact Or.inr ⟨t, pending, rfl, hdue, by simp [hdue]⟩
    · refine Or.inl ⟨fun u hu => ?_, by simp [hdue]⟩
      -- The popped operation is greatest in the reversed order, so nothing is earlier.
      have hgreatest := (H.pop_some _ _ _ hpop).2 u hu
      have hle : t.scheduledTimestamp ≤ u.scheduledTimestamp := by
        simpa [TimestampedMaroonTask.cmp, compare_gt_iff_gt] using hgreatest
      exact lt_of_lt_of_le (Nat.not_le.mp hdue) hle

theorem transition_of_step {p : Profile} {fsm fsm' : MaroonRuntime W H} {input : Input W}
    {events : List (Event W)} (h : (runtime p W H).step fsm input = some (fsm', events)) :
    Transition p fsm input fsm' events := by
  obtain ⟨⟨fsm₁, event⟩, hstep, heq⟩ := Option.map_eq_some_iff.mp h
  rw [except_toOption_eq_some] at hstep
  cases heq
  cases input with
  | schedule writer l ts =>
    simp only [runtimeStep, launchHandlerWs_eq, schedule, NextTaskIdGenerator.issue] at hstep
    cases hadd : u64Add p.overflowChecks fsm.taskIdGenerator.nextTaskId 1 with
    | none => simp [hadd, checkedArith] at hstep
    | some next =>
      simp only [hadd, checkedArith, except_ok_bind, Except.ok.injEq, Prod.mk.injEq] at hstep
      obtain ⟨rfl, rfl⟩ := hstep
      exact .scheduled writer l ts next hadd
  | iterate cutoff writeResult =>
    rcases iteration_cases p fsm cutoff writeResult with
      ⟨hnone, heq⟩ | ⟨t, pending, hpop, hdue, heq⟩
    · obtain ⟨rfl, rfl⟩ := Prod.mk.inj (Except.ok.inj (heq.symm.trans hstep))
      exact .idle cutoff writeResult hnone
    · have hexec := heq.symm.trans hstep
      cases hlookup : fsm.activeTasks.lookup t.taskId with
      | none => simp [executeOperation, hlookup] at hexec
      | some task =>
        rw [executeOperation_eq p
          { fsm with pendingOperations := pending } _ _ hlookup] at hexec
        cases hsolo : stepTask p ⟨t.scheduledTimestamp, task.maroonStack, task.maroonHeap⟩ with
        | error e => simp [hsolo, Except.map] at hexec
        | ok outcome =>
          cases outcome with
          | finished =>
            simp only [hsolo, Except.map, settle, Except.ok.injEq, Prod.mk.injEq] at hexec
            obtain ⟨rfl, rfl⟩ := hexec
            exact .finished cutoff writeResult t pending task hpop hdue hlookup hsolo
          | requeued written next =>
            simp only [hsolo, Except.map, settle, Except.ok.injEq, Prod.mk.injEq] at hexec
            obtain ⟨rfl, rfl⟩ := hexec
            exact .requeued cutoff writeResult t pending task written next hpop hdue hlookup hsolo

end RustExperiments.Maroon
