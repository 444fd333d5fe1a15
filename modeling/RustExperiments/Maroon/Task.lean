/- module: RustExperiments/Maroon/Task
   digest: Stack entries, heaps and the sixteen-state step function of the task interpreter. -/

import RustExperiments.Lib.U64

set_option autoImplicit false
set_option relaxedAutoImplicit false

namespace RustExperiments.Maroon

open RustExperiments.Lib

/-- How the crate is built: under `cfg(test)`, and with overflow checks on arithmetic. -/
structure Profile where
  test : Bool
  overflowChecks : Bool
  deriving DecidableEq, Repr

/-- Milliseconds since the start of the timer, a `u64` newtype in the source. -/
abbrev LogicalTimeAbsoluteMs := ℕ

abbrev LogicalTimeDeltaMs := ℕ

abbrev MaroonTaskId := ℕ

inductive MaroonTaskState where
  | completed
  | delayedMessageTaskBegin
  | delayedMessageTaskExecute
  | divisorsTaskBegin
  | divisorsTaskIteration
  | divisorsPrintAndMoveOn
  | fibonacciTaskBegin
  | fibonacciTaskCalculate
  | fibonacciTaskResult
  | fibonacciTaskStep
  | factorialEntry
  | factorialRecursiveCall
  | factorialRecursionPostWrite
  | factorialRecursionPostSleep
  | factorialRecursionPostRecursiveCall
  | factorialDone
  deriving DecidableEq, Repr

inductive MaroonTaskStackEntryValue where
  | delayInputMs (ms : ℕ)
  | delayInputMessage (message : String)
  | factorialInput (n : ℕ)
  | factorialArgument (n : ℕ)
  | factorialReturnValue (r : ℕ)
  deriving DecidableEq, Repr

/-- For a given `S`, how many entries next to `State(S)` are its local stack variables. -/
def maroonTaskStateLocalVarsCount : MaroonTaskState → ℕ
  | .factorialEntry => 1
  | .factorialRecursiveCall => 1
  | .factorialRecursionPostWrite => 1
  | .factorialRecursionPostSleep => 1
  | .factorialRecursionPostRecursiveCall => 2
  | .factorialDone => 2
  | .delayedMessageTaskBegin => 2
  | .delayedMessageTaskExecute => 2
  | _ => 0

/-- For a given `S`, how many entries next to `Retrn(S)` are its local stack variables. -/
def maroonTaskStateReturnLocalVarsCount : MaroonTaskState → ℕ
  | .factorialDone => 1
  | .factorialRecursionPostRecursiveCall => 1
  | _ => 0

inductive MaroonTaskStackEntry where
  | state (s : MaroonTaskState)
  | retrn (s : MaroonTaskState)
  | value (v : MaroonTaskStackEntryValue)
  deriving DecidableEq, Repr

structure MaroonTaskHeapDivisors where
  n : ℕ
  i : ℕ
  deriving DecidableEq, Repr

structure MaroonTaskHeapFibonacci where
  n : ℕ
  index : ℕ
  a : ℕ
  b : ℕ
  delayMs : LogicalTimeDeltaMs
  deriving DecidableEq, Repr

inductive MaroonTaskHeap where
  | empty
  | divisors (data : MaroonTaskHeapDivisors)
  | fibonacci (data : MaroonTaskHeapFibonacci)
  deriving DecidableEq, Repr

inductive Arith where
  | add
  | mul
  | sub
  deriving DecidableEq, Repr

inductive Panic where
  /-- `Unexpected arguments in …` -/
  | unexpectedArguments (state : MaroonTaskState)
  /-- `Heap type mismatch for …`, with the state that the message names -/
  | heapTypeMismatch (state : MaroonTaskState)
  /-- `The active task should have at least one state in call stack.` -/
  | emptyCallStack
  /-- `Expected a state at the top of the stack, found a value.` -/
  | expectedState
  /-- `The value on the stack appears to be a 'function', not a value, aborting.` -/
  | notAValue
  /-- `Nowhere to Return to!` -/
  | nowhereToReturn
  /-- ``Should be `Return`-ing to a state, …`` -/
  | notReturningToState
  /-- ``In `debug_validate_maroon_stack` …`` -/
  | invalidStack
  /-- `The task just retrieved from fsm.pending_operations should exist.` -/
  | missingTask
  | overflow (op : Arith)
  deriving DecidableEq, Repr

def Panic.isShape : Panic → Bool
  | .missingTask => false
  | .overflow _ => false
  | _ => true

def checkedArith {α : Type} (op : Arith) : Option α → Except Panic α
  | some a => .ok a
  | none => .error (.overflow op)

section Format

variable (p : Profile)

def formatDelayedMessage (sleepMs : LogicalTimeAbsoluteMs) (message : String) : String :=
  if p.test then message else s!"Delayed by {sleepMs}ms: `{message}`."

def formatDivisorFound (n i : ℕ) : String :=
  if p.test then s!"{n}%{i}==0" else s!"A divisor of {n} is {i}."

def formatDivisorsDone (n : ℕ) : String :=
  if p.test then s!"{n}!" else s!"Done for {n}!"

def formatFibonacciStep (n index a _b : ℕ) : String :=
  if p.test then s!"fib{index}[{n}]={a}" else s!"Fibonacci({n}) for {index} : {a}."

def formatFibonacciResult (n result : ℕ) : String :=
  if p.test then s!"fib{n}={result}" else s!"Fibonacci[{n}] = {result}"

end Format

inductive MaroonStepResult where
  | done
  | next (newStates : List MaroonTaskStackEntry)
  | sleep (sleepMs : LogicalTimeDeltaMs) (newStates : List MaroonTaskStackEntry)
  | write (text : String) (newStates : List MaroonTaskStackEntry)
  | return_ (retval : MaroonTaskStackEntryValue)
  deriving DecidableEq, Repr

/-- The loop `while i > 0 && n % i != 0 { i -= 1; }` from the given cursor. -/
def searchDivisor (n : ℕ) : ℕ → ℕ
  | 0 => 0
  | i + 1 => if n % (i + 1) ≠ 0 then searchDivisor n i else i + 1

/-- One step of a task: `vars` are its local variables, the top of the stack first. -/
def globalStep (p : Profile) (state : MaroonTaskState) (vars : List MaroonTaskStackEntryValue)
    (heap : MaroonTaskHeap) : Except Panic (MaroonStepResult × MaroonTaskHeap) :=
  match state with
  | .delayedMessageTaskBegin =>
    match vars with
    | .delayInputMessage msg :: .delayInputMs delayMs :: _ =>
      .ok (.sleep delayMs
        [.value (.delayInputMs delayMs), .value (.delayInputMessage msg),
          .state .delayedMessageTaskExecute], heap)
    | _ => .error (.unexpectedArguments .delayedMessageTaskBegin)
  | .delayedMessageTaskExecute =>
    match vars with
    | .delayInputMessage msg :: .delayInputMs delayMs :: _ =>
      .ok (.write (formatDelayedMessage p delayMs msg) [.state .completed], heap)
    | _ => .error (.unexpectedArguments .delayedMessageTaskExecute)
  | .divisorsTaskBegin =>
    match heap with
    | .divisors data =>
      .ok (.next [.state .divisorsTaskIteration], .divisors { data with i := data.n })
    | _ => .error (.heapTypeMismatch .divisorsTaskBegin)
  | .divisorsTaskIteration =>
    match heap with
    | .divisors data =>
      let i := searchDivisor data.n data.i
      if i = 0 then
        .ok (.write (formatDivisorsDone p data.n) [.state .completed], heap)
      else do
        let sleepMs ← checkedArith .mul (u64Mul p.overflowChecks i 10)
        .ok (.sleep sleepMs [.state .divisorsPrintAndMoveOn], .divisors { data with i := i })
    | _ => .error (.heapTypeMismatch .divisorsTaskIteration)
  | .divisorsPrintAndMoveOn =>
    match heap with
    | .divisors data => do
      let result := .write (formatDivisorFound p data.n data.i) [.state .divisorsTaskIteration]
      let i ← checkedArith .sub (u64Sub p.overflowChecks data.i 1)
      .ok (result, .divisors { data with i := i })
    | _ => .error (.heapTypeMismatch .divisorsPrintAndMoveOn)
  | .fibonacciTaskBegin =>
    match heap with
    | .fibonacci data =>
      if data.n ≤ 1 then
        .ok (.write (formatFibonacciResult p data.n data.n) [.state .completed], heap)
      else
        .ok (.next [.state .fibonacciTaskCalculate],
          .fibonacci { data with index := 1, a := 0, b := 1 })
    -- The source's message names the other task's first state here.
    | _ => .error (.heapTypeMismatch .divisorsTaskBegin)
  | .fibonacciTaskCalculate =>
    match heap with
    | .fibonacci data =>
      if data.index ≥ data.n then
        .ok (.next [.state .fibonacciTaskResult], heap)
      else do
        let delay ← checkedArith .mul (u64Mul p.overflowChecks 5 data.index)
        .ok (.write (formatFibonacciStep p data.n data.index data.b data.a)
          [.state .fibonacciTaskStep], .fibonacci { data with delayMs := delay })
    | _ => .error (.heapTypeMismatch .fibonacciTaskCalculate)
  | .fibonacciTaskStep =>
    match heap with
    | .fibonacci data => do
      let nextIndex ← checkedArith .add (u64Add p.overflowChecks data.index 1)
      let nextB ← checkedArith .add (u64Add p.overflowChecks data.a data.b)
      .ok (.sleep data.delayMs [.state .fibonacciTaskCalculate],
        .fibonacci { data with index := nextIndex, a := data.b, b := nextB })
    | _ => .error (.heapTypeMismatch .fibonacciTaskStep)
  | .fibonacciTaskResult =>
    match heap with
    | .fibonacci data =>
      .ok (.write (formatFibonacciResult p data.n data.b) [.state .completed], heap)
    | _ => .error (.heapTypeMismatch .fibonacciTaskResult)
  | .factorialEntry =>
    match vars with
    | .factorialInput n :: _ =>
      .ok (.next
        [.value (.factorialInput n), .retrn .factorialDone, .value (.factorialArgument n),
          .state .factorialRecursiveCall], heap)
    | _ => .error (.unexpectedArguments .factorialEntry)
  | .factorialRecursiveCall =>
    match vars with
    | .factorialArgument n :: _ =>
      .ok (.write s!"f({n})"
        [.value (.factorialArgument n), .state .factorialRecursionPostWrite], heap)
    | _ => .error (.unexpectedArguments .factorialRecursiveCall)
  | .factorialRecursionPostWrite =>
    match vars with
    | .factorialArgument n :: _ => do
      let sleepMs ← checkedArith .mul (u64Mul p.overflowChecks n 50)
      .ok (.sleep sleepMs
        [.value (.factorialArgument n), .state .factorialRecursionPostSleep], heap)
    | _ => .error (.unexpectedArguments .factorialRecursionPostWrite)
  | .factorialRecursionPostSleep =>
    match vars with
    | .factorialArgument n :: _ =>
      if n > 1 then
        .ok (.next
          [.value (.factorialArgument n), .retrn .factorialRecursionPostRecursiveCall,
            .value (.factorialArgument (n - 1)), .state .factorialRecursiveCall], heap)
      else
        .ok (.return_ (.factorialReturnValue 1), heap)
    | _ => .error (.unexpectedArguments .factorialRecursionPostSleep)
  | .factorialRecursionPostRecursiveCall =>
    match vars with
    | .factorialReturnValue a :: .factorialArgument n :: _ => do
      let r ← checkedArith .mul (u64Mul p.overflowChecks a n)
      .ok (.return_ (.factorialReturnValue r), heap)
    | _ => .error (.unexpectedArguments .factorialRecursionPostRecursiveCall)
  | .factorialDone =>
    match vars with
    | .factorialReturnValue r :: .factorialInput n :: _ =>
      .ok (.write s!"{n}!={r}" [.state .completed], heap)
    | _ => .error (.unexpectedArguments .factorialDone)
  | .completed => .ok (.done, heap)

end RustExperiments.Maroon
