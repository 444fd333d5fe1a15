/- module: RustExperiments/Maroon/Termination
   digest: The executor loop ends under any timer readings, and tasks in as many steps as their rank. -/

import RustExperiments.Maroon.Divisors
import RustExperiments.Maroon.Drain

set_option autoImplicit false
set_option relaxedAutoImplicit false

namespace RustExperiments.Maroon

open RustExperiments.Lib

variable {W : Type} {H : PendingHeap} {p : Profile}

/-- `execute_pending_operations_inner` for at most `fuel` turns of its loop: in turn `k` the timer
reads `readings k`, and a write ends with `writeResults k`. -/
def executePendingOperationsLoop (p : Profile) :
    ℕ → (ℕ → LogicalTimeAbsoluteMs) → (ℕ → Except String Unit) → MaroonRuntime W H →
      Option (Except Panic (MaroonRuntime W H) × List (Event W))
  | 0, _, _, _ => none
  | fuel + 1, readings, writeResults, fsm =>
    match executePendingOperationsIteration p fsm (readings 0) (writeResults 0) with
    | .error panic => some (.error panic, [])
    | .ok (fsm, .idle) => some (.ok fsm, [])
    | .ok (fsm, event) =>
      (executePendingOperationsLoop p fuel (fun k => readings (k + 1))
        (fun k => writeResults (k + 1)) fsm).map fun drained => (drained.1, event :: drained.2)

theorem loop_succ {fsm mid : MaroonRuntime W H} {readings : ℕ → LogicalTimeAbsoluteMs}
    {writeResults : ℕ → Except String Unit} {event : Event W} (fuel : ℕ)
    (turn : executePendingOperationsIteration p fsm (readings 0) (writeResults 0) =
      .ok (mid, event)) (busy : event ≠ .idle) :
    executePendingOperationsLoop p (fuel + 1) readings writeResults fsm =
      (executePendingOperationsLoop p fuel (fun k => readings (k + 1))
        (fun k => writeResults (k + 1)) mid).map fun drained => (drained.1, event :: drained.2) := by
  rw [executePendingOperationsLoop, turn]
  cases event with
  | idle => exact absurd rfl busy
  | _ => rfl

theorem loop_const (cutoff : LogicalTimeAbsoluteMs) (fuel : ℕ)
    (writeResults : ℕ → Except String Unit) (fsm : MaroonRuntime W H) :
    executePendingOperationsLoop p fuel (fun _ => cutoff) writeResults fsm =
      executePendingOperationsInner p cutoff fuel writeResults fsm := by
  induction fuel generalizing writeResults fsm with
  | zero => rfl
  | succ fuel ih =>
    rcases hturn : executePendingOperationsIteration p fsm cutoff (writeResults 0) with
      panic | ⟨mid, event⟩
    · rw [executePendingOperationsLoop, executePendingOperationsInner, hturn]
    · by_cases busy : event = .idle
      · subst busy
        rw [executePendingOperationsLoop, executePendingOperationsInner, hturn]
      · rw [loop_succ fuel hturn busy, inner_succ fuel writeResults hturn busy, ih]

theorem turn_panics {fsm : MaroonRuntime W H} (ranked : TasksRanked fsm)
    {cutoff : LogicalTimeAbsoluteMs} {writeResult : Except String Unit} {panic : Panic}
    (turn : executePendingOperationsIteration p fsm cutoff writeResult = .error panic) :
    (p.overflowChecks = true ∧ ∃ op, panic = .overflow op) ∨ panic = .missingTask := by
  rcases iteration_cases p fsm cutoff writeResult with ⟨_, heq⟩ | ⟨t, pending, _, _, heq⟩
  · rw [heq] at turn
    cases turn
  · rw [heq] at turn
    cases hlookup : fsm.activeTasks.lookup t.taskId with
    | none =>
      simp only [executeOperation, hlookup, Except.error.injEq] at turn
      exact Or.inr turn.symm
    | some task =>
      rw [executeOperation_eq p { fsm with pendingOperations := pending } _ _ hlookup] at turn
      cases hsolo : stepTask p ⟨t.scheduledTimestamp, task.maroonStack, task.maroonHeap⟩ with
      | ok outcome => simp [hsolo, Except.map] at turn
      | error e =>
        rw [hsolo] at turn
        cases turn
        exact Or.inl ((ranked _ _ hlookup).panicked
          (c := ⟨t.scheduledTimestamp, task.maroonStack, task.maroonHeap⟩) hsolo)

/-- The loop is left within the load, by induction on it: a turn that executes nothing finds
nothing due at its own reading of the timer. -/
theorem loop_ends {fsm : MaroonRuntime W H} (ranked : TasksRanked fsm) {fuel : ℕ}
    (enough : load fsm < fuel) (readings : ℕ → LogicalTimeAbsoluteMs)
    (writeResults : ℕ → Except String Unit) :
    ∃ ended steps, executePendingOperationsLoop p fuel readings writeResults fsm =
        some (ended, steps) ∧ steps.length ≤ load fsm ∧
      ∀ fsm', ended = .ok fsm' → ∀ t ∈ H.elems fsm'.pendingOperations,
        readings steps.length < t.scheduledTimestamp := by
  induction fuel generalizing fsm readings writeResults with
  | zero => exact absurd enough (Nat.not_lt_zero _)
  | succ fuel ih =>
    rcases hturn : executePendingOperationsIteration p fsm (readings 0) (writeResults 0) with
      panic | ⟨mid, event⟩
    · refine ⟨.error panic, [], ?_, Nat.zero_le _, fun fsm' heq => by cases heq⟩
      rw [executePendingOperationsLoop, hturn]
    · by_cases busy : event = .idle
      · subst busy
        refine ⟨.ok mid, [], ?_, Nat.zero_le _, ?_⟩
        · rw [executePendingOperationsLoop, hturn]
        · rintro fsm' heq
          cases heq
          rw [iteration_write] at hturn
          obtain ⟨rfl, hnone⟩ := nothing_due hturn
          exact hnone
      · obtain ⟨hranked, hlt⟩ := load_lt ranked hturn busy
        obtain ⟨ended, steps, hloop, hlength, hdue⟩ := ih hranked (by omega)
          (fun k => readings (k + 1)) fun k => writeResults (k + 1)
        refine ⟨ended, event :: steps, ?_, by rw [List.length_cons]; omega, hdue⟩
        rw [loop_succ fuel hturn busy, hloop]
        rfl

theorem loop_panics {inputs : List (Input W)} {fsm : MaroonRuntime W H} {events : List (Event W)}
    (run : (runtime p W H).run (MaroonRuntime.new W H) inputs = some (fsm, events))
    (typed : ∀ writer l ts, .schedule writer l ts ∈ inputs → l.IsU64) {fuel : ℕ}
    {readings : ℕ → LogicalTimeAbsoluteMs} {writeResults : ℕ → Except String Unit}
    {panic : Panic} {steps : List (Event W)}
    (ended : executePendingOperationsLoop p fuel readings writeResults fsm =
      some (.error panic, steps)) :
    (p.overflowChecks = true ∧ ∃ op, panic = .overflow op) ∨
      (panic = .missingTask ∧ ¬ IdsFit p inputs) := by
  induction fuel generalizing inputs events fsm readings writeResults steps with
  | zero => cases ended
  | succ fuel ih =>
    rcases hturn : executePendingOperationsIteration p fsm (readings 0) (writeResults 0) with
      panic' | ⟨mid, event⟩
    · rw [executePendingOperationsLoop, hturn] at ended
      cases ended
      rcases turn_panics (tasks_ranked run typed) hturn with hoverflow | rfl
      · exact Or.inl hoverflow
      · refine Or.inr ⟨rfl, fun fit => ?_⟩
        exact (consistent_of_run run fit).no_missing_task (tasks_shaped run) _ _ hturn
    · by_cases busy : event = .idle
      · subst busy
        rw [executePendingOperationsLoop, hturn] at ended
        cases ended
      · rw [loop_succ fuel hturn busy] at ended
        obtain ⟨⟨ended', steps'⟩, hrest, heq⟩ := Option.map_eq_some_iff.mp ended
        cases heq
        have hstep : (runtime p W H).step fsm (.iterate (readings 0) (writeResults 0)) =
            some (mid, [event]) := by
          simp [runtime, runtimeStep, hturn, Except.toOption]
        have hrun := (runtime p W H).run_append run (((runtime p W H).run_singleton).mpr hstep)
        have htyped : ∀ writer l ts,
            .schedule writer l ts ∈ inputs ++ [.iterate (readings 0) (writeResults 0)] →
              l.IsU64 := by
          intro writer l ts hmem
          rcases List.mem_append.mp hmem with hold | hnew
          · exact typed _ _ _ hold
          · cases List.mem_singleton.mp hnew
        refine (ih hrun htyped hrest).imp_right fun h => ⟨h.1, fun fit => h.2 fun hchecks => ?_⟩
        rw [scheduleCalls_append, List.length_append]
        exact fit hchecks

section Steps

def Event.executes (taskId : MaroonTaskId) : Event W → Bool
  | .executed id _ _ _ => id == taskId
  | _ => false

def stepsOf (taskId : MaroonTaskId) (events : List (Event W)) : ℕ :=
  events.countP (Event.executes taskId)

theorem stepsOf_append (taskId : MaroonTaskId) (xs ys : List (Event W)) :
    stepsOf taskId (xs ++ ys) = stepsOf taskId xs + stepsOf taskId ys := List.countP_append

@[simp] theorem stepsOf_scheduled (taskId id : MaroonTaskId) (writer : W) (l : Launch)
    (ts : LogicalTimeAbsoluteMs) : stepsOf taskId [.scheduled id writer l ts] = 0 := rfl

@[simp] theorem stepsOf_idle (taskId : MaroonTaskId) : stepsOf taskId [(.idle : Event W)] = 0 := rfl

theorem stepsOf_executed (taskId id : MaroonTaskId) (ts : LogicalTimeAbsoluteMs)
    (written : Option (W × String)) (done : Bool) :
    stepsOf taskId [.executed id ts written done] = if id = taskId then 1 else 0 := by
  by_cases h : id = taskId <;> simp [stepsOf, Event.executes, h]

def rankLeft (fsm : MaroonRuntime W H) (taskId : MaroonTaskId) : ℕ :=
  (fsm.activeTasks.lookup taskId).elim 0 fun task => rank task.maroonStack task.maroonHeap

/-- The steps executed and the rank that is left come out of the rank of the launch. -/
structure Spends (events : List (Event W)) (fsm : MaroonRuntime W H) : Prop where
  unissued : ∀ taskId ∉ issuedIds events, stepsOf taskId events = 0
  spent : ∀ taskId writer l ts, Event.scheduled taskId writer l ts ∈ events →
    stepsOf taskId events + rankLeft fsm taskId ≤ rank l.stack l.heap

theorem Spends.executed {events : List (Event W)} {fsm : MaroonRuntime W H}
    (h : Spends events fsm) {id : MaroonTaskId} (issued : id ∈ issuedIds events)
    (ts : LogicalTimeAbsoluteMs) (written : Option (W × String)) (done : Bool)
    {mid : MaroonRuntime W H} (own : rankLeft mid id < rankLeft fsm id)
    (others : ∀ taskId ≠ id, rankLeft mid taskId = rankLeft fsm taskId) :
    Spends (events ++ [.executed id ts written done]) mid := by
  constructor
  · intro taskId hid
    have hold : taskId ∉ issuedIds events := fun hmem => hid (by simp [hmem])
    have hother : id ≠ taskId := fun heq => hold (heq ▸ issued)
    rw [stepsOf_append, h.unissued taskId hold, stepsOf_executed, if_neg hother]
  · intro taskId writer l ts' hmem
    have hbefore := h.spent taskId writer l ts' (by simpa using hmem)
    rw [stepsOf_append, stepsOf_executed]
    by_cases hid : id = taskId
    · subst hid
      rw [if_pos rfl]
      omega
    · rw [if_neg hid, others taskId (Ne.symm hid)]
      exact hbefore

theorem spends_of_run {inputs : List (Input W)} {fsm : MaroonRuntime W H}
    {events : List (Event W)}
    (run : (runtime p W H).run (MaroonRuntime.new W H) inputs = some (fsm, events))
    (fit : IdsFit p inputs) (typed : ∀ writer l ts, .schedule writer l ts ∈ inputs → l.IsU64) :
    Spends events fsm := by
  refine Machine.run_invariant (runtime p W H) (fun is os s => IdsFit p is →
    (∀ writer l ts, .schedule writer l ts ∈ is → l.IsU64) → Spends os s)
    (fun _ _ => ⟨fun _ _ => rfl, fun _ _ _ _ h => absurd h (List.not_mem_nil)⟩) ?_ run fit typed
  intro is os s i t o hrun inv hstep fit typed
  have htyped : ∀ writer l ts, .schedule writer l ts ∈ is → l.IsU64 :=
    fun writer l ts hmem => typed writer l ts (List.mem_append_left _ hmem)
  have hspends := inv fit.of_append htyped
  have consistent := consistent_of_run hrun fit.of_append
  have ranked := tasks_ranked hrun htyped
  cases transition_of_step hstep with
  | scheduled writer l ts next advanced =>
    have hfresh : s.taskIdGenerator.nextTaskId ∉ issuedIds os := fun hmem =>
      absurd ((consistent.mem_issued_iff _).mp hmem).2 (lt_irrefl _)
    constructor
    · intro taskId hid
      have hold : taskId ∉ issuedIds os := fun hmem => hid (by simp [hmem])
      rw [stepsOf_append, hspends.unissued taskId hold, stepsOf_scheduled]
    · intro taskId writer' l' ts' hmem
      rw [stepsOf_append, stepsOf_scheduled, Nat.add_zero]
      rcases List.mem_append.mp hmem with hold | hnew
      · have hne : taskId ≠ s.taskIdGenerator.nextTaskId := fun he =>
          hfresh (he ▸ mem_issuedIds_of_scheduled hold)
        simpa [rankLeft, hne] using hspends.spent taskId writer' l' ts' hold
      · cases List.mem_singleton.mp hnew
        simp [hspends.unissued _ hfresh, rankLeft]
  | idle =>
    refine ⟨fun taskId hid => ?_, fun taskId writer l ts hmem => ?_⟩
    · rw [stepsOf_append, hspends.unissued taskId (by simpa using hid), stepsOf_idle]
    · rw [stepsOf_append, stepsOf_idle, Nat.add_zero]
      exact hspends.spent taskId writer l ts (by simpa using hmem)
  | finished cutoff writeResult t pending task popped due present step =>
    have hissued := ((consistent.active_iff _).mp (Finmap.mem_iff.mpr ⟨task, present⟩)).1
    have hpos := (ranked _ _ present).finished
      (c := ⟨t.scheduledTimestamp, task.maroonStack, task.maroonHeap⟩) step
    refine hspends.executed hissued _ none true ?_ fun taskId hne => ?_
    · simpa [rankLeft, present] using hpos
    · simp [rankLeft, hne]
  | requeued cutoff writeResult t pending task written next popped due present step =>
    have hissued := ((consistent.active_iff _).mp (Finmap.mem_iff.mpr ⟨task, present⟩)).1
    have hlt := ((ranked _ _ present).requeued
      (c := ⟨t.scheduledTimestamp, task.maroonStack, task.maroonHeap⟩) step).2
    refine hspends.executed hissued _ _ false ?_ fun taskId hne => ?_
    · simpa [rankLeft, present] using hlt
    · simp [rankLeft, hne]

end Steps

/-- From every reachable runtime, whatever the timer reads in its turns, the executor loop is left
after no more steps than the load: when nothing is due, or on a panic, which is a checked overflow
as long as no identifier has come round. The search of the divisors ends. A task halts within its
rank, which is a number read off its stack and heap; without overflow checks it comes to `Done`, and
in the runtime no more of its steps are executed than the rank of its launch. -/
theorem draining_terminates {inputs : List (Input W)} {fsm : MaroonRuntime W H}
    {events : List (Event W)}
    (run : (runtime p W H).run (MaroonRuntime.new W H) inputs = some (fsm, events))
    (typed : ∀ writer l ts, .schedule writer l ts ∈ inputs → l.IsU64) :
    (∀ readings writeResults, ∃ ended steps,
      executePendingOperationsLoop p (load fsm + 1) readings writeResults fsm =
        some (ended, steps) ∧
      steps.length ≤ load fsm ∧
      (∀ fsm', ended = .ok fsm' → ∀ t ∈ H.elems fsm'.pendingOperations,
        readings steps.length < t.scheduledTimestamp) ∧
      ∀ panic, ended = .error panic → (p.overflowChecks = true ∧ ∃ op, panic = .overflow op) ∨
        (panic = .missingTask ∧ ¬ IdsFit p inputs)) ∧
    (∀ checks n i, searchLoop checks n (i + 1) i = some (searchDivisor n i)) ∧
    (∀ taskId task, fsm.activeTasks.lookup taskId = some task → ∀ ts,
      HaltsIn p (rank task.maroonStack task.maroonHeap)
        ⟨ts, task.maroonStack, task.maroonHeap⟩ ∧
      (p.overflowChecks = false → ∃ k ≤ rank task.maroonStack task.maroonHeap, ∃ outputs,
        (solo p).after (some ⟨ts, task.maroonStack, task.maroonHeap⟩) k =
          some (none, outputs))) ∧
    (IdsFit p inputs → ∀ taskId writer l ts, Event.scheduled taskId writer l ts ∈ events →
      stepsOf taskId events ≤ rank l.stack l.heap) := by
  have ranked := tasks_ranked run typed
  refine ⟨fun readings writeResults => ?_, searchLoop_eq, fun taskId task present ts => ?_,
    fun fit taskId writer l ts launched => ?_⟩
  · obtain ⟨ended, steps, hloop, hlength, hdue⟩ :=
      loop_ends (p := p) ranked (Nat.lt_succ_self _) readings writeResults
    refine ⟨ended, steps, hloop, hlength, hdue, ?_⟩
    rintro panic rfl
    exact loop_panics run typed hloop
  · have hranked := ranked taskId task present
    exact ⟨Ranked.haltsIn (c := ⟨ts, task.maroonStack, task.maroonHeap⟩) hranked (le_refl _),
      Ranked.done (c := ⟨ts, task.maroonStack, task.maroonHeap⟩) hranked⟩
  · exact (Nat.le_add_right _ _).trans
      ((spends_of_run run fit typed).spent taskId writer l ts launched)

def wrappingInputs : List (Input String) :=
  [.schedule "first" (.delay (2 ^ 64 - 1) "hi") 5, .schedule "second" (.factorial 3) 0,
    .iterate 0 (.ok ()), .iterate 0 (.ok ()), .iterate 7 (.ok ())]

theorem wrapping_draining_terminates : ∃ fsm events,
    (runtime ⟨false, false⟩ String .list).run (MaroonRuntime.new String .list) wrappingInputs =
      some (fsm, events) ∧
    ∀ readings writeResults, ∃ fsm' steps,
      executePendingOperationsLoop ⟨false, false⟩ (load fsm + 1) readings writeResults fsm =
        some (.ok fsm', steps) ∧ steps.length ≤ load fsm := by
  have hrun : ((runtime ⟨false, false⟩ String .list).run (MaroonRuntime.new String .list)
      wrappingInputs).isSome := by
    decide +kernel
  obtain ⟨⟨fsm, events⟩, run⟩ := Option.isSome_iff_exists.mp hrun
  have typed : ∀ writer l ts, .schedule writer l ts ∈ wrappingInputs → l.IsU64 := by
    intro writer l ts hmem
    simp only [wrappingInputs, List.mem_cons, Input.schedule.injEq, reduceCtorEq,
      List.not_mem_nil, or_false] at hmem
    rcases hmem with ⟨_, rfl, _⟩ | ⟨_, rfl, _⟩
    · exact (by decide : 2 ^ 64 - 1 < u64Size)
    · exact (by decide : 3 < u64Size)
  refine ⟨fsm, events, run, fun readings writeResults => ?_⟩
  obtain ⟨ended, steps, hloop, hlength, _, hpanic⟩ :=
    (draining_terminates run typed).1 readings writeResults
  cases ended with
  | ok fsm' => exact ⟨fsm', steps, hloop, hlength⟩
  | error panic =>
    rcases hpanic panic rfl with ⟨hchecks, _⟩ | ⟨_, hfit⟩
    · cases hchecks
    · exact absurd (fun _ => by decide) hfit

end RustExperiments.Maroon
