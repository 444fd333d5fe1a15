/- module: RustExperiments/Maroon/Runtime
   digest: The shared task runtime, its scheduling calls and the iterations of its executor. -/

import RustExperiments.Lib.BinaryHeap
import RustExperiments.Lib.Machine
import RustExperiments.Lib.Table
import RustExperiments.Maroon.Task

set_option autoImplicit false
set_option relaxedAutoImplicit false

namespace RustExperiments.Maroon

open RustExperiments.Lib

structure NextTaskIdGenerator where
  nextTaskId : ℕ
  deriving DecidableEq, Repr

def NextTaskIdGenerator.new : NextTaskIdGenerator := ⟨1⟩

/-- `next_task_id()`: the identifier and the advanced generator. -/
def NextTaskIdGenerator.issue (p : Profile) (g : NextTaskIdGenerator) :
    Except Panic (MaroonTaskId × NextTaskIdGenerator) := do
  let next ← checkedArith .add (u64Add p.overflowChecks g.nextTaskId 1)
  .ok (g.nextTaskId, ⟨next⟩)

structure TimestampedMaroonTask where
  scheduledTimestamp : LogicalTimeAbsoluteMs
  taskId : MaroonTaskId
  deriving DecidableEq, Repr

/-- Reversed order by design: the heap pops the earliest timestamp. -/
def TimestampedMaroonTask.cmp (self other : TimestampedMaroonTask) : Ordering :=
  compare other.scheduledTimestamp self.scheduledTimestamp

/-- The heap of pending operations; any `BinaryHeap` over the reversed order. -/
abbrev PendingHeap := BinaryHeap TimestampedMaroonTask TimestampedMaroonTask.cmp

abbrev PendingHeap.list : PendingHeap :=
  BinaryHeap.sortedList TimestampedMaroonTask.scheduledTimestamp

/-- The entries of the vector, the bottom of the stack first. -/
abbrev MaroonTaskStack := List MaroonTaskStackEntry

structure MaroonTask (W : Type) where
  description : String
  writer : W
  maroonStack : MaroonTaskStack
  maroonHeap : MaroonTaskHeap
  deriving DecidableEq, Repr

structure MaroonRuntime (W : Type) (H : PendingHeap) where
  taskIdGenerator : NextTaskIdGenerator
  pendingOperations : H.Carrier
  activeTasks : Table MaroonTaskId (MaroonTask W)

variable {W : Type} {H : PendingHeap}

def MaroonRuntime.new (W : Type) (H : PendingHeap) : MaroonRuntime W H :=
  ⟨.new, H.new, ∅⟩

/-- `AppState::schedule`, under the mutex. -/
def schedule (p : Profile) (fsm : MaroonRuntime W H) (writer : W) (maroonStack : MaroonTaskStack)
    (maroonHeap : MaroonTaskHeap) (scheduledTimestamp : LogicalTimeAbsoluteMs)
    (taskDescription : String) : Except Panic (MaroonRuntime W H × MaroonTaskId) := do
  let (taskId, generator) ← fsm.taskIdGenerator.issue p
  .ok ({ taskIdGenerator := generator
         activeTasks := fsm.activeTasks.insert taskId
           ⟨taskDescription, writer, maroonStack, maroonHeap⟩
         pendingOperations := H.push fsm.pendingOperations ⟨scheduledTimestamp, taskId⟩ }, taskId)

/-- The path parameters with which a handler launches a task. -/
inductive Launch where
  | delay (t : ℕ) (s : String)
  | divisors (n : ℕ)
  | fibonacci (n : ℕ)
  | factorial (n : ℕ)
  deriving DecidableEq, Repr

section Handlers

variable (p : Profile) (fsm : MaroonRuntime W H) (socket : W) (ts : LogicalTimeAbsoluteMs)

def delayHandlerWs (t : ℕ) (s : String) : Except Panic (MaroonRuntime W H × MaroonTaskId) :=
  schedule p fsm socket
    [.value (.delayInputMs t), .value (.delayInputMessage s), .state .delayedMessageTaskBegin]
    .empty ts s!"Delayed by {t}ms: `{s}`."

def divisorsHandlerWs (n : ℕ) : Except Panic (MaroonRuntime W H × MaroonTaskId) :=
  schedule p fsm socket [.state .divisorsTaskBegin] (.divisors ⟨n, n⟩) ts s!"Divisors of {n}"

def fibonacciHandlerWs (n : ℕ) : Except Panic (MaroonRuntime W H × MaroonTaskId) :=
  schedule p fsm socket [.state .fibonacciTaskBegin] (.fibonacci ⟨n, 0, 0, 0, 0⟩) ts
    s!"Fibonacci number {n}"

def factorialHandlerWs (n : ℕ) : Except Panic (MaroonRuntime W H × MaroonTaskId) :=
  schedule p fsm socket [.value (.factorialInput n), .state .factorialEntry] .empty ts
    s!"Factorial of {n}"

def launchHandlerWs : Launch → Except Panic (MaroonRuntime W H × MaroonTaskId)
  | .delay t s => delayHandlerWs p fsm socket ts t s
  | .divisors n => divisorsHandlerWs p fsm socket ts n
  | .fibonacci n => fibonacciHandlerWs p fsm socket ts n
  | .factorial n => factorialHandlerWs p fsm socket ts n

end Handlers

/-- `Vec::pop`. -/
def vecPop {α : Type} (v : List α) : Option (α × List α) :=
  v.getLast?.map fun a => (a, v.dropLast)

@[simp] theorem vecPop_concat {α : Type} (v : List α) (a : α) :
    vecPop (v ++ [a]) = some (a, v) := by
  simp [vecPop]

/-- The inner `for _ in 0..n` of the validator, walking down from index `i`. -/
def validateValues (stk : MaroonTaskStack) : ℕ → ℕ → Except Panic ℕ
  | 0, i => .ok i
  | n + 1, i =>
    match stk[i - 1]? with
    | some (.value _) => validateValues stk n (i - 1)
    | _ => .error .invalidStack

/-- The number of local variables that the validator expects below index `i`. -/
def validateEntry (stk : MaroonTaskStack) (i : ℕ) : Except Panic ℕ :=
  match stk[i]? with
  | some (.state state) => .ok (maroonTaskStateLocalVarsCount state)
  | some (.retrn state) => .ok (maroonTaskStateReturnLocalVarsCount state)
  | _ => .error .invalidStack

/-- The outer `while i > 0` of the validator. -/
def validateFrom (stk : MaroonTaskStack) (i : ℕ) : Except Panic Unit :=
  if 0 < i then
    match validateEntry stk i with
    | .error e => .error e
    | .ok n =>
      if n > i then .error .invalidStack
      else
        match validateValues stk n i with
        | .error e => .error e
        | .ok _ =>
          -- After `n` decrements the index is `i - n`; at zero the loop breaks.
          if i - n = 0 then .ok () else validateFrom stk (i - n - 1)
  else .ok ()
termination_by i

/-- `debug_validate_maroon_stack`, which is empty outside `cfg(test)`. -/
def debugValidateMaroonStack (p : Profile) (stk : MaroonTaskStack) : Except Panic Unit :=
  if p.test then
    if stk.length = 0 then .error .invalidStack else validateFrom stk (stk.length - 1)
  else .ok ()

def popState (stk : MaroonTaskStack) : Except Panic (MaroonTaskState × MaroonTaskStack) :=
  match vecPop stk with
  | none => .error .emptyCallStack
  | some (.state s, rest) => .ok (s, rest)
  | some _ => .error .expectedState

/-- Take `n` values off the top of the stack, the first one taken in front. -/
def popVars : ℕ → MaroonTaskStack →
    Except Panic (List MaroonTaskStackEntryValue × MaroonTaskStack)
  | 0, stk => .ok ([], stk)
  | n + 1, stk =>
    match vecPop stk with
    | some (.value v, rest) => do
      let (vars, rest) ← popVars n rest
      .ok (v :: vars, rest)
    | _ => .error .notAValue

inductive Event (W : Type) where
  /-- a `schedule` call issued this identifier -/
  | scheduled (taskId : MaroonTaskId) (writer : W) (launch : Launch) (ts : LogicalTimeAbsoluteMs)
  /-- one queued operation was executed; `written` is the argument of `write_text`, if called -/
  | executed (taskId : MaroonTaskId) (ts : LogicalTimeAbsoluteMs) (written : Option (W × String))
      (done : Bool)
  /-- the executor found nothing due and left its loop -/
  | idle
  deriving DecidableEq, Repr

/-- The part of one executor iteration after an operation was popped. -/
def executeOperation (p : Profile) (fsm : MaroonRuntime W H) (taskId : MaroonTaskId)
    (scheduledTimestamp : LogicalTimeAbsoluteMs) (writeResult : Except String Unit) :
    Except Panic (MaroonRuntime W H × Event W) :=
  match fsm.activeTasks.lookup taskId with
  | none => .error .missingTask
  | some maroonTask => do
    let activeTasks := fsm.activeTasks.erase taskId
    debugValidateMaroonStack p maroonTask.maroonStack
    let (currentState, entries) ← popState maroonTask.maroonStack
    let (vars, entries) ← popVars (maroonTaskStateLocalVarsCount currentState) entries
    let (stepResult, heap) ← globalStep p currentState vars maroonTask.maroonHeap
    match stepResult with
    | .done =>
      .ok ({ fsm with activeTasks := activeTasks.erase taskId },
        .executed taskId scheduledTimestamp none true)
    | .sleep sleepMs newStates => do
      let entries := entries ++ newStates
      debugValidateMaroonStack p entries
      let wakeTimestamp ← checkedArith .add (u64Add p.overflowChecks scheduledTimestamp sleepMs)
      .ok ({ fsm with
              activeTasks := activeTasks.insert taskId
                { maroonTask with maroonStack := entries, maroonHeap := heap }
              pendingOperations := H.push fsm.pendingOperations ⟨wakeTimestamp, taskId⟩ },
        .executed taskId scheduledTimestamp none false)
    | .write text newStates => do
      -- `let _ = … .write_text(…).await`: the outcome is discarded.
      let _ := writeResult
      let entries := entries ++ newStates
      debugValidateMaroonStack p entries
      .ok ({ fsm with
              activeTasks := activeTasks.insert taskId
                { maroonTask with maroonStack := entries, maroonHeap := heap }
              pendingOperations := H.push fsm.pendingOperations ⟨scheduledTimestamp, taskId⟩ },
        .executed taskId scheduledTimestamp (some (maroonTask.writer, text)) false)
    | .next newStates => do
      let entries := entries ++ newStates
      debugValidateMaroonStack p entries
      .ok ({ fsm with
              activeTasks := activeTasks.insert taskId
                { maroonTask with maroonStack := entries, maroonHeap := heap }
              pendingOperations := H.push fsm.pendingOperations ⟨scheduledTimestamp, taskId⟩ },
        .executed taskId scheduledTimestamp none false)
    | .return_ retval =>
      match vecPop entries with
      | none => .error .nowhereToReturn
      | some (.retrn nextState, entries) =>
        let entries := entries ++ [.value retval] ++ [.state nextState]
        .ok ({ fsm with
                activeTasks := activeTasks.insert taskId
                  { maroonTask with maroonStack := entries, maroonHeap := heap }
                pendingOperations := H.push fsm.pendingOperations ⟨scheduledTimestamp, taskId⟩ },
          .executed taskId scheduledTimestamp none false)
      | some _ => .error .notReturningToState

/-- One turn of the loop of `execute_pending_operations_inner` with the timer at `cutoff`. -/
def executePendingOperationsIteration (p : Profile) (fsm : MaroonRuntime W H)
    (cutoff : LogicalTimeAbsoluteMs) (writeResult : Except String Unit) :
    Except Panic (MaroonRuntime W H × Event W) :=
  match H.peek fsm.pendingOperations with
  | none => .ok (fsm, .idle)
  | some t =>
    if t.scheduledTimestamp ≤ cutoff then
      match H.pop fsm.pendingOperations with
      | none => .ok (fsm, .idle)
      | some (t, pendingOperations) =>
        executeOperation p { fsm with pendingOperations := pendingOperations } t.taskId
          t.scheduledTimestamp writeResult
    else .ok (fsm, .idle)

inductive Input (W : Type) where
  | schedule (writer : W) (launch : Launch) (ts : LogicalTimeAbsoluteMs)
  | iterate (cutoff : LogicalTimeAbsoluteMs) (writeResult : Except String Unit)

/-- A step of the runtime; an error is a panic, which ends the process. -/
def runtimeStep (p : Profile) (fsm : MaroonRuntime W H) :
    Input W → Except Panic (MaroonRuntime W H × Event W)
  | .schedule writer launch ts => do
    let (fsm, taskId) ← launchHandlerWs p fsm writer ts launch
    .ok (fsm, .scheduled taskId writer launch ts)
  | .iterate cutoff writeResult => executePendingOperationsIteration p fsm cutoff writeResult

def runtime (p : Profile) (W : Type) (H : PendingHeap) :
    Machine (MaroonRuntime W H) (Input W) (Event W) where
  step fsm input := (runtimeStep p fsm input).toOption.map fun r => (r.1, [r.2])

/-- Two tasks that share the executor, the second one launched between two steps of the first,
with a socket that is closed in the end. -/
def interleavedInputs : List (Input String) :=
  [.schedule "first" (.factorial 2) 0, .iterate 0 (.ok ()), .iterate 0 (.ok ()),
    .schedule "second" (.delay 5 "hi") 3, .iterate 1 (.ok ()), .iterate 50 (.ok ()),
    .iterate 200 (.error "closed"), .iterate 200 (.error "closed"), .iterate 200 (.error "closed")]

theorem interleavedInputs_run :
    ∃ fsm events, (runtime ⟨false, true⟩ String .list).run (MaroonRuntime.new String .list)
      interleavedInputs = some (fsm, events) := by
  have h : ((runtime ⟨false, true⟩ String .list).run (MaroonRuntime.new String .list)
      interleavedInputs).isSome := by decide
  obtain ⟨⟨fsm, events⟩, hrun⟩ := Option.isSome_iff_exists.mp h
  exact ⟨fsm, events, hrun⟩

end RustExperiments.Maroon
