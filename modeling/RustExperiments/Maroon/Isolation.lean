/- module: RustExperiments/Maroon/Isolation
   digest: A task writes in the shared runtime what it writes alone, at the same logical times. -/

import RustExperiments.Maroon.Consistency

set_option autoImplicit false
set_option relaxedAutoImplicit false

namespace RustExperiments.Maroon

open RustExperiments.Lib

/-- A task on its own: it steps from activation to activation, and rests once it is done. -/
def solo (p : Profile) : Machine (Option Activation) Unit (LogicalTimeAbsoluteMs × String) where
  step
    | none, _ => some (none, [])
    | some c, _ => (stepTask p c).toOption.map fun
      | .finished => (none, [])
      | .requeued written next => (some next, written.toList.map fun text => (c.ts, text))

theorem solo_step_finished {p : Profile} {c : Activation} (h : stepTask p c = .ok .finished) :
    (solo p).step (some c) () = some (none, []) := by
  simp [solo, h, Except.toOption]

theorem solo_step_requeued {p : Profile} {c next : Activation} {written : Option String}
    (h : stepTask p c = .ok (.requeued written next)) :
    (solo p).step (some c) () =
      some (some next, written.toList.map fun text => (c.ts, text)) := by
  simp [solo, h, Except.toOption]

variable {W : Type} {H : PendingHeap} {p : Profile}

/-- The timestamp and the arguments of the `write_text` call of an event of this task. -/
def Event.write (taskId : MaroonTaskId) : Event W → Option (LogicalTimeAbsoluteMs × W × String)
  | .executed id ts (some (writer, text)) _ => if id = taskId then some (ts, writer, text) else none
  | _ => none

/-- Everything that this task passed to `write_text`, in order. -/
def writesOf (taskId : MaroonTaskId) (events : List (Event W)) :
    List (LogicalTimeAbsoluteMs × W × String) :=
  events.filterMap (Event.write taskId)

def withWriter (writer : W) (output : LogicalTimeAbsoluteMs × String) :
    LogicalTimeAbsoluteMs × W × String :=
  (output.1, writer, output.2)

@[simp] theorem writesOf_append (taskId : MaroonTaskId) (xs ys : List (Event W)) :
    writesOf taskId (xs ++ ys) = writesOf taskId xs ++ writesOf taskId ys :=
  List.filterMap_append ..

@[simp] theorem writesOf_scheduled (taskId id : MaroonTaskId) (writer : W) (l : Launch)
    (ts : LogicalTimeAbsoluteMs) : writesOf taskId [.scheduled id writer l ts] = [] := rfl

@[simp] theorem writesOf_idle (taskId : MaroonTaskId) : writesOf taskId [(.idle : Event W)] = [] :=
  rfl

@[simp] theorem writesOf_silent (taskId id : MaroonTaskId) (ts : LogicalTimeAbsoluteMs)
    (done : Bool) : writesOf taskId [(.executed id ts none done : Event W)] = [] := rfl

theorem writesOf_other {taskId id : MaroonTaskId} (h : id ≠ taskId) (ts : LogicalTimeAbsoluteMs)
    (written : Option (W × String)) (done : Bool) :
    writesOf taskId [.executed id ts written done] = [] := by
  cases written <;> simp [writesOf, Event.write, h]

theorem writesOf_own (taskId : MaroonTaskId) (ts : LogicalTimeAbsoluteMs) (writer : W)
    (written : Option String) (done : Bool) :
    writesOf taskId [.executed taskId ts (written.map fun text => (writer, text)) done] =
      (written.toList.map fun text => (ts, text)).map (withWriter writer) := by
  cases written <;> simp [writesOf, Event.write, withWriter]

theorem Consistent.pending_unique {events : List (Event W)} {fsm : MaroonRuntime W H}
    (c : Consistent events fsm) {t u : TimestampedMaroonTask}
    (ht : t ∈ H.elems fsm.pendingOperations) (hu : u ∈ H.elems fsm.pendingOperations)
    (same : t.taskId = u.taskId) : t = u :=
  Multiset.inj_on_of_nodup_map c.nodup t ht u hu same

/-- The task waits in the runtime, in this activation. -/
structure Waits (fsm : MaroonRuntime W H) (taskId : MaroonTaskId) (writer : W)
    (c : Activation) : Prop where
  queued : ⟨c.ts, taskId⟩ ∈ H.elems fsm.pendingOperations
  active : ∃ description, fsm.activeTasks.lookup taskId =
    some ⟨description, writer, c.stack, c.heap⟩

theorem Waits.after_other {fsm : MaroonRuntime W H} {taskId id : MaroonTaskId} {writer : W}
    {c : Activation} (h : Waits fsm taskId writer c) (other : taskId ≠ id)
    {generator : NextTaskIdGenerator} {pending : H.Carrier}
    {activeTasks : Table MaroonTaskId (MaroonTask W)}
    (queued : ∀ u ∈ H.elems fsm.pendingOperations, u.taskId ≠ id → u ∈ H.elems pending)
    (active : ∀ i, i ≠ id → activeTasks.lookup i = fsm.activeTasks.lookup i) :
    Waits (⟨generator, pending, activeTasks⟩ : MaroonRuntime W H) taskId writer c where
  queued := queued _ h.queued other
  active := by simpa only [active taskId other] using h.active

/-- The runtime has taken a launched task some way along its solo run: what it has written is
the output up to there, and it waits in the activation reached, or it is done. -/
def Follows (p : Profile) (taskId : MaroonTaskId) (writer : W) (start : Activation)
    (events : List (Event W)) (fsm : MaroonRuntime W H) : Prop :=
  ∃ n cur outputs, (solo p).after (some start) n = some (cur, outputs) ∧
    writesOf taskId events = outputs.map (withWriter writer) ∧
    match cur with
    | none => taskId ∈ doneIds events
    | some c => Waits fsm taskId writer c

/-- What the isolation argument carries along a run. -/
structure Isolated (p : Profile) (events : List (Event W)) (fsm : MaroonRuntime W H) : Prop where
  unissued : ∀ taskId ∉ issuedIds events, writesOf taskId events = []
  follows : ∀ taskId writer l ts, Event.scheduled taskId writer l ts ∈ events →
    Follows p taskId writer (l.activation ts) events fsm

theorem mem_issuedIds_of_scheduled {events : List (Event W)} {taskId : MaroonTaskId} {writer : W}
    {l : Launch} {ts : LogicalTimeAbsoluteMs}
    (h : Event.scheduled taskId writer l ts ∈ events) : taskId ∈ issuedIds events :=
  List.mem_filterMap.mpr ⟨_, h, rfl⟩

theorem Follows.after_other {taskId id : MaroonTaskId} {writer : W} {start : Activation}
    {events : List (Event W)} {fsm : MaroonRuntime W H}
    (h : Follows p taskId writer start events fsm) (other : taskId ≠ id) {e : Event W}
    (silent : writesOf taskId [e] = []) {generator : NextTaskIdGenerator} {pending : H.Carrier}
    {activeTasks : Table MaroonTaskId (MaroonTask W)}
    (queued : ∀ u ∈ H.elems fsm.pendingOperations, u.taskId ≠ id → u ∈ H.elems pending)
    (active : ∀ i, i ≠ id → activeTasks.lookup i = fsm.activeTasks.lookup i) :
    Follows p taskId writer start (events ++ [e])
      (⟨generator, pending, activeTasks⟩ : MaroonRuntime W H) := by
  obtain ⟨n, cur, outputs, hsolo, hwrites, hcur⟩ := h
  refine ⟨n, cur, outputs, hsolo, by rw [writesOf_append, silent, List.append_nil, hwrites], ?_⟩
  cases cur with
  | none =>
    rw [doneIds_append]
    exact List.mem_append_left _ hcur
  | some c => exact hcur.after_other other queued active

/-- The operation that the executor pops is the next step of the solo run of its task. -/
theorem Follows.popped {taskId : MaroonTaskId} {writer : W} {start : Activation}
    {events : List (Event W)} {fsm : MaroonRuntime W H}
    (h : Follows p taskId writer start events fsm) (consistent : Consistent events fsm)
    {t : TimestampedMaroonTask} {pending : H.Carrier}
    (popped : H.pop fsm.pendingOperations = some (t, pending)) (own : taskId = t.taskId)
    {task : MaroonTask W} (present : fsm.activeTasks.lookup t.taskId = some task) :
    task.writer = writer ∧ ∃ n outputs,
      (solo p).after (some start) n =
        some (some ⟨t.scheduledTimestamp, task.maroonStack, task.maroonHeap⟩, outputs) ∧
      writesOf taskId events = outputs.map (withWriter writer) := by
  obtain ⟨n, cur, outputs, hsolo, hwrites, hcur⟩ := h
  have hmem : t ∈ H.elems fsm.pendingOperations := by
    rw [(H.pop_some _ _ _ popped).1]
    exact Multiset.mem_cons_self _ _
  cases cur with
  | none =>
    have hpending : taskId ∈ pendingIds fsm := own ▸ Multiset.mem_map_of_mem _ hmem
    exact absurd hpending (consistent.not_mem_of_done hcur).2
  | some c =>
    obtain ⟨description, hlookup⟩ := hcur.active
    have hsame := consistent.pending_unique hcur.queued hmem own
    subst own
    rw [present] at hlookup
    cases hlookup
    refine ⟨rfl, n, outputs, ?_, hwrites⟩
    rw [hsolo, ← hsame]

theorem Isolated.unissued_snoc {events : List (Event W)} {fsm : MaroonRuntime W H}
    (h : Isolated p events fsm) {e : Event W}
    (silent : ∀ taskId, taskId ∉ issuedIds (events ++ [e]) → writesOf taskId [e] = []) :
    ∀ taskId ∉ issuedIds (events ++ [e]), writesOf taskId (events ++ [e]) = [] := by
  intro taskId hid
  have hold : taskId ∉ issuedIds events := fun hmem => hid (by simp [hmem])
  rw [writesOf_append, h.unissued taskId hold, silent taskId hid, List.append_nil]

theorem Isolated.after_schedule {events : List (Event W)} {fsm : MaroonRuntime W H}
    (h : Isolated p events fsm) (consistent : Consistent events fsm) (writer : W) (l : Launch)
    (ts : LogicalTimeAbsoluteMs) (generator : NextTaskIdGenerator) :
    Isolated p (events ++ [.scheduled fsm.taskIdGenerator.nextTaskId writer l ts])
      (⟨generator, H.push fsm.pendingOperations ⟨ts, fsm.taskIdGenerator.nextTaskId⟩,
        fsm.activeTasks.insert fsm.taskIdGenerator.nextTaskId
          ⟨l.description, writer, l.stack, l.heap⟩⟩ : MaroonRuntime W H) := by
  have hfresh : fsm.taskIdGenerator.nextTaskId ∉ issuedIds events := fun hmem =>
    absurd ((consistent.mem_issued_iff _).mp hmem).2 (lt_irrefl _)
  refine ⟨h.unissued_snoc fun _ _ => writesOf_scheduled .., ?_⟩
  intro taskId writer' l' ts' hmem
  rcases List.mem_append.mp hmem with hold | hnew
  · have hne : taskId ≠ fsm.taskIdGenerator.nextTaskId := fun he =>
      hfresh (he ▸ mem_issuedIds_of_scheduled hold)
    exact (h.follows _ _ _ _ hold).after_other hne (writesOf_scheduled ..)
      (fun u hu _ => by rw [H.elems_push]; exact Multiset.mem_cons_of_mem hu)
      (fun i hi => by simp [hi])
  · cases List.mem_singleton.mp hnew
    refine ⟨0, some (l.activation ts), [], rfl, by simp [h.unissued _ hfresh], ?_⟩
    exact ⟨by simp [Launch.activation, H.elems_push], l.description, by simp [Launch.activation]⟩

theorem Isolated.after_idle {events : List (Event W)} {fsm : MaroonRuntime W H}
    (h : Isolated p events fsm) : Isolated p (events ++ [.idle]) fsm := by
  refine ⟨h.unissued_snoc fun _ _ => rfl, ?_⟩
  intro taskId writer l ts hmem
  have hold : Event.scheduled taskId writer l ts ∈ events := by simpa using hmem
  obtain ⟨n, cur, outputs, hsolo, hwrites, hcur⟩ := h.follows _ _ _ _ hold
  refine ⟨n, cur, outputs, hsolo, by simpa using hwrites, ?_⟩
  cases cur with
  | none => simpa using hcur
  | some c => exact hcur

theorem Isolated.after_executed {events : List (Event W)} {fsm : MaroonRuntime W H}
    (h : Isolated p events fsm) (consistent : Consistent events fsm)
    {t : TimestampedMaroonTask} {pending : H.Carrier} {task : MaroonTask W}
    (popped : H.pop fsm.pendingOperations = some (t, pending))
    (present : fsm.activeTasks.lookup t.taskId = some task)
    {written : Option String} {done : Bool} {cur : Option Activation}
    (step : (solo p).step
        (some ⟨t.scheduledTimestamp, task.maroonStack, task.maroonHeap⟩) () =
      some (cur, written.toList.map fun text => (t.scheduledTimestamp, text)))
    {generator : NextTaskIdGenerator} {pending' : H.Carrier}
    {activeTasks : Table MaroonTaskId (MaroonTask W)}
    (queued : ∀ u ∈ H.elems pending, u ∈ H.elems pending')
    (active : ∀ i, i ≠ t.taskId → activeTasks.lookup i = fsm.activeTasks.lookup i)
    (reached : match cur with
      | none => done = true
      | some c => Waits (⟨generator, pending', activeTasks⟩ : MaroonRuntime W H) t.taskId
          task.writer c) :
    Isolated p (events ++ [.executed t.taskId t.scheduledTimestamp
        (written.map fun text => (task.writer, text)) done])
      (⟨generator, pending', activeTasks⟩ : MaroonRuntime W H) := by
  have hissued : t.taskId ∈ issuedIds events :=
    ((consistent.active_iff _).mp (Finmap.mem_iff.mpr ⟨task, present⟩)).1
  refine ⟨h.unissued_snoc fun taskId hid => ?_, ?_⟩
  · exact writesOf_other (fun he => hid (by simp [← he, hissued])) _ _ _
  intro taskId writer l ts hmem
  have hold : Event.scheduled taskId writer l ts ∈ events := by simpa using hmem
  have hfollows := h.follows _ _ _ _ hold
  by_cases own : taskId = t.taskId
  · obtain ⟨rfl, n, outputs, hsolo, hwrites⟩ := hfollows.popped consistent popped own present
    refine ⟨n + 1, cur, outputs ++ _, ((solo p).after_succ_iff).mpr ⟨_, _, _, hsolo, step, rfl⟩,
      ?_, ?_⟩
    · rw [writesOf_append, hwrites, own, writesOf_own, List.map_append]
    · subst own
      cases cur with
      | none =>
        subst reached
        simp
      | some c => exact reached
  · refine hfollows.after_other own (writesOf_other (Ne.symm own) _ _ _) (fun u hu hne => ?_) active
    rw [(H.pop_some _ _ _ popped).1, Multiset.mem_cons] at hu
    exact queued u (hu.resolve_left fun he => hne (he ▸ rfl))

theorem isolated_of_run {inputs : List (Input W)} {fsm : MaroonRuntime W H}
    {events : List (Event W)}
    (run : (runtime p W H).run (MaroonRuntime.new W H) inputs = some (fsm, events))
    (fit : IdsFit p inputs) : Isolated p events fsm := by
  refine Machine.run_invariant (runtime p W H) (fun is os s => IdsFit p is → Isolated p os s)
    (fun _ => ⟨fun _ _ => rfl, fun _ _ _ _ h => absurd h (List.not_mem_nil)⟩) ?_ run fit
  intro is os s i t o hrun inv hstep fit
  have hiso := inv fit.of_append
  have consistent := consistent_of_run hrun fit.of_append
  cases transition_of_step hstep with
  | scheduled writer l ts next advanced => exact hiso.after_schedule consistent writer l ts _
  | idle => exact hiso.after_idle
  | finished cutoff writeResult t pending task popped due present step =>
    have hstep : (solo p).step
        (some ⟨t.scheduledTimestamp, task.maroonStack, task.maroonHeap⟩) () =
          some (none, (none : Option String).toList.map fun text => (t.scheduledTimestamp, text)) :=
      solo_step_finished step
    exact hiso.after_executed consistent popped present hstep (fun _ h => h)
      (fun i hi => by simp [hi]) rfl
  | requeued cutoff writeResult t pending task written next popped due present step =>
    refine hiso.after_executed consistent popped present (solo_step_requeued step)
      (fun u h => by rw [H.elems_push]; exact Multiset.mem_cons_of_mem h)
      (fun i hi => by simp [hi]) ?_
    exact ⟨by simp [H.elems_push], task.description, by simp⟩

section Alone

/-- One launch and then a number of iterations, with the timer at a reading that it does not
outgrow: everything that a task alone in the runtime will ever queue is due there. -/
def aloneInputs (writer : W) (l : Launch) (ts : LogicalTimeAbsoluteMs) (n : ℕ) : List (Input W) :=
  .schedule writer l ts :: List.replicate n (.iterate (max ts (u64Size - 1)) (.ok ()))

theorem aloneInputs_succ (writer : W) (l : Launch) (ts : LogicalTimeAbsoluteMs) (n : ℕ) :
    aloneInputs writer l ts (n + 1) =
      aloneInputs writer l ts n ++ [.iterate (max ts (u64Size - 1)) (.ok ())] := by
  simp [aloneInputs, List.replicate_succ']

/-- A task alone in the runtime, at some point of its solo run. -/
def AloneAt (bound : ℕ) (writer : W) (fsm : MaroonRuntime W H) : Option Activation → Prop
  | none => H.elems fsm.pendingOperations = 0 ∧ fsm.activeTasks.lookup 1 = none
  | some c => H.elems fsm.pendingOperations = {⟨c.ts, 1⟩} ∧ c.ts ≤ bound ∧
    ∃ description, fsm.activeTasks.lookup 1 = some ⟨description, writer, c.stack, c.heap⟩

theorem solo_step_cases {c : Activation} {cur : Option Activation}
    {outputs : List (LogicalTimeAbsoluteMs × String)}
    (h : (solo p).step (some c) () = some (cur, outputs)) :
    (stepTask p c = .ok .finished ∧ cur = none ∧ outputs = []) ∨
    ∃ written next, stepTask p c = .ok (.requeued written next) ∧ cur = some next ∧
      outputs = written.toList.map fun text => (c.ts, text) := by
  obtain ⟨outcome, hstep, heq⟩ := Option.map_eq_some_iff.mp h
  rw [except_toOption_eq_some] at hstep
  cases outcome with
  | finished =>
    cases heq
    exact Or.inl ⟨hstep, rfl, rfl⟩
  | requeued written next =>
    cases heq
    exact Or.inr ⟨written, next, hstep, rfl, rfl⟩

theorem solo_induction {Inv : Activation → Prop}
    (preserved : ∀ c written next, Inv c → stepTask p c = .ok (.requeued written next) → Inv next)
    {c c' : Activation} (initial : Inv c) {n : ℕ}
    {outputs : List (LogicalTimeAbsoluteMs × String)}
    (reached : (solo p).after (some c) n = some (some c', outputs)) : Inv c' := by
  induction n generalizing c' outputs with
  | zero =>
    cases reached
    exact initial
  | succ n ih =>
    obtain ⟨mid, o₁, o₂, hleft, hstep, _⟩ := ((solo p).after_succ_iff).mp reached
    cases mid with
    | none => cases hstep
    | some c₁ =>
      rcases solo_step_cases hstep with ⟨_, hnone, _⟩ | ⟨written, next, hsolo, hsome, _⟩
      · cases hnone
      · cases hsome
        exact preserved _ _ _ (ih hleft) hsolo

theorem AloneAt.iteration_eq {bound : ℕ} {writer : W} {c : Activation} {fsm : MaroonRuntime W H}
    (h : AloneAt bound writer fsm (some c)) (writeResult : Except String Unit) :
    ∃ (pending : H.Carrier) (task : MaroonTask W), H.elems pending = 0 ∧ task.writer = writer ∧
      executePendingOperationsIteration p fsm bound writeResult =
        (stepTask p c).map (settle { fsm with pendingOperations := pending } 1 c.ts task) := by
  obtain ⟨hqueued, hdue, description, hlookup⟩ := h
  rcases iteration_cases p fsm bound writeResult with ⟨hnone, _⟩ | ⟨t, pending, hpop, _, heq⟩
  · exact absurd (hnone ⟨c.ts, 1⟩ (by simp [hqueued])) (Nat.not_lt.mpr hdue)
  · have hcons := (H.pop_some _ _ _ hpop).1
    rw [hqueued, Multiset.singleton_eq_cons_iff] at hcons
    obtain ⟨rfl, hpending⟩ := hcons
    rw [executeOperation_eq p { fsm with pendingOperations := pending } _ _ hlookup] at heq
    exact ⟨pending, _, hpending, rfl, heq⟩

theorem AloneAt.iterate {bound : ℕ} {writer : W} {cur cur' : Option Activation}
    {fsm : MaroonRuntime W H} {outputs : List (LogicalTimeAbsoluteMs × String)}
    (h : AloneAt bound writer fsm cur) (large : u64Size - 1 ≤ bound)
    (step : (solo p).step cur () = some (cur', outputs)) :
    ∃ fsm' event, (runtime p W H).step fsm (.iterate bound (.ok ())) = some (fsm', [event]) ∧
      AloneAt bound writer fsm' cur' ∧
      writesOf 1 [event] = outputs.map (withWriter writer) := by
  have hrun : ∀ {fsm' event}, executePendingOperationsIteration p fsm bound (.ok ()) =
      .ok (fsm', event) → (runtime p W H).step fsm (.iterate bound (.ok ())) =
        some (fsm', [event]) := by
    intro fsm' event heq
    simp [runtime, runtimeStep, heq, Except.toOption]
  cases cur with
  | none =>
    cases step
    rcases iteration_cases p fsm bound (.ok ()) with ⟨_, heq⟩ | ⟨t, pending, hpop, _, _⟩
    · exact ⟨fsm, .idle, hrun heq, h, rfl⟩
    · have hempty := h.1
      rw [(H.pop_some _ _ _ hpop).1] at hempty
      simp at hempty
  | some c =>
    obtain ⟨pending, task, hpending, rfl, heq⟩ := h.iteration_eq (p := p) (.ok ())
    obtain ⟨_, hdue, _⟩ := h
    rcases solo_step_cases step with ⟨hsolo, rfl, rfl⟩ | ⟨written, next, hsolo, rfl, rfl⟩
    · rw [hsolo] at heq
      exact ⟨_, _, hrun heq, ⟨hpending, by simp⟩, rfl⟩
    · rw [hsolo] at heq
      refine ⟨_, _, hrun heq, ⟨by simp [H.elems_push, hpending], ?_, task.description, by simp⟩,
        writesOf_own ..⟩
      rcases stepTask_ts hsolo with hsame | ⟨_, sleepMs, hwake⟩
      · rw [hsame]
        exact hdue
      · exact (Nat.le_sub_one_of_lt (u64Fit_lt hwake)).trans large

/-- Every finite part of a solo run is what some run of the runtime does with the task alone. -/
theorem alone_run (H : PendingHeap) (writer : W) (l : Launch) (ts : LogicalTimeAbsoluteMs)
    {n : ℕ} {cur : Option Activation} {outputs : List (LogicalTimeAbsoluteMs × String)}
    (h : (solo p).after (some (l.activation ts)) n = some (cur, outputs)) :
    ∃ fsm events, (runtime p W H).run (MaroonRuntime.new W H) (aloneInputs writer l ts n) =
        some (fsm, events) ∧
      AloneAt (max ts (u64Size - 1)) writer fsm cur ∧
      writesOf 1 events = outputs.map (withWriter writer) := by
  induction n generalizing cur outputs with
  | zero =>
    cases h
    have hissue : checkedArith Arith.add (u64Add p.overflowChecks 1 1) = .ok 2 := by
      rw [u64Add, u64Fit_of_lt (by decide)]
      rfl
    let launched : MaroonRuntime W H := ⟨⟨2⟩, H.push H.new ⟨ts, 1⟩,
      (∅ : Table MaroonTaskId (MaroonTask W)).insert 1 ⟨l.description, writer, l.stack, l.heap⟩⟩
    refine ⟨launched, [.scheduled 1 writer l ts], ((runtime p W H).run_singleton).mpr ?_,
      ⟨?_, le_max_left _ _, l.description, ?_⟩, rfl⟩
    · simp [runtime, runtimeStep, launchHandlerWs_eq, schedule, NextTaskIdGenerator.issue,
        MaroonRuntime.new, NextTaskIdGenerator.new, hissue, Except.toOption, launched]
    · simp [Launch.activation, H.elems_push, H.elems_new, launched]
    · simp [Launch.activation, launched]
  | succ n ih =>
    obtain ⟨mid, o₁, o₂, hleft, hstep, rfl⟩ := ((solo p).after_succ_iff).mp h
    obtain ⟨fsm, events, hrun, halone, hwrites⟩ := ih hleft
    obtain ⟨fsm', event, hlast, halone', hwrite⟩ := halone.iterate (le_max_right _ _) hstep
    refine ⟨fsm', events ++ [event], ?_, halone', by simp [hwrites, hwrite]⟩
    rw [aloneInputs_succ]
    exact (runtime p W H).run_append hrun (((runtime p W H).run_singleton).mpr hlast)

end Alone

def outputsOf (taskId : MaroonTaskId) (events : List (Event W)) :
    List (LogicalTimeAbsoluteMs × String) :=
  (writesOf taskId events).map fun w => (w.1, w.2.2)

theorem outputsOf_eq {taskId : MaroonTaskId} {events : List (Event W)} {writer : W}
    {outputs : List (LogicalTimeAbsoluteMs × String)}
    (h : writesOf taskId events = outputs.map (withWriter writer)) :
    outputsOf taskId events = outputs := by
  simp [outputsOf, h, withWriter, Function.comp_def]

/-- What a task has written is the output of a finite part of its solo run, and of the whole
of it once the task is gone from `active_tasks`. -/
theorem solo_of_run {inputs : List (Input W)} {fsm : MaroonRuntime W H} {events : List (Event W)}
    (run : (runtime p W H).run (MaroonRuntime.new W H) inputs = some (fsm, events))
    (fit : IdsFit p inputs) {taskId : MaroonTaskId} {writer : W} {l : Launch}
    {ts : LogicalTimeAbsoluteMs} (launched : Event.scheduled taskId writer l ts ∈ events) :
    ∃ n cur, (solo p).after (some (l.activation ts)) n = some (cur, outputsOf taskId events) ∧
      writesOf taskId events = (outputsOf taskId events).map (withWriter writer) ∧
      (taskId ∉ fsm.activeTasks ↔ cur = none) := by
  obtain ⟨n, cur, outputs, hsolo, hwrites, hcur⟩ :=
    (isolated_of_run run fit).follows _ _ _ _ launched
  refine ⟨n, cur, by rw [outputsOf_eq hwrites, hsolo], by rw [outputsOf_eq hwrites, hwrites], ?_⟩
  cases cur with
  | none => simpa using ((consistent_of_run run fit).not_mem_of_done hcur).1
  | some c =>
    obtain ⟨description, hlookup⟩ := hcur.active
    simpa using Finmap.mem_iff.mpr ⟨_, hlookup⟩

/-- Two runs in which the same task was launched agree on what it writes, as far as both of
them have come; a run that has finished it has come at least as far as the other. -/
theorem outputs_comparable {W₁ W₂ : Type} {H₁ H₂ : PendingHeap} {inputs₁ : List (Input W₁)}
    {inputs₂ : List (Input W₂)} {fsm₁ : MaroonRuntime W₁ H₁} {fsm₂ : MaroonRuntime W₂ H₂}
    {events₁ : List (Event W₁)} {events₂ : List (Event W₂)}
    (run₁ : (runtime p W₁ H₁).run (MaroonRuntime.new W₁ H₁) inputs₁ = some (fsm₁, events₁))
    (run₂ : (runtime p W₂ H₂).run (MaroonRuntime.new W₂ H₂) inputs₂ = some (fsm₂, events₂))
    (fit₁ : IdsFit p inputs₁) (fit₂ : IdsFit p inputs₂) {id₁ id₂ : MaroonTaskId} {writer₁ : W₁}
    {writer₂ : W₂} {l : Launch} {ts : LogicalTimeAbsoluteMs}
    (launched₁ : Event.scheduled id₁ writer₁ l ts ∈ events₁)
    (launched₂ : Event.scheduled id₂ writer₂ l ts ∈ events₂) :
    (outputsOf id₁ events₁ <+: outputsOf id₂ events₂ ∨
      outputsOf id₂ events₂ <+: outputsOf id₁ events₁) ∧
    (id₁ ∉ fsm₁.activeTasks → outputsOf id₂ events₂ <+: outputsOf id₁ events₁) := by
  obtain ⟨n₁, cur₁, hsolo₁, _, hgone₁⟩ := solo_of_run run₁ fit₁ launched₁
  obtain ⟨n₂, cur₂, hsolo₂, _, _⟩ := solo_of_run run₂ fit₂ launched₂
  refine ⟨(solo p).after_comparable hsolo₁ hsolo₂, fun gone => ?_⟩
  obtain rfl := hgone₁.mp gone
  exact (solo p).after_whole rfl hsolo₁ hsolo₂

/-- At every moment of every interleaving a task has written, to its own writer, what some run
of the task alone writes; compared with any run of the task alone it has written a prefix of
what that run writes when it completes the task, and all of it when the task is gone from
`active_tasks`. Neither the other tasks, nor the timer readings, the outcomes of the writes or
the ties in the heap enter. -/
theorem tasks_isolated {inputs : List (Input W)} {fsm : MaroonRuntime W H}
    {events : List (Event W)}
    (run : (runtime p W H).run (MaroonRuntime.new W H) inputs = some (fsm, events))
    (fit : IdsFit p inputs) {taskId : MaroonTaskId} {writer : W} {l : Launch}
    {ts : LogicalTimeAbsoluteMs} (launched : Event.scheduled taskId writer l ts ∈ events) :
    (∀ write ∈ writesOf taskId events, write.2.1 = writer) ∧
    (∃ (n : ℕ) (alone : MaroonRuntime W H) (aloneEvents : List (Event W)),
      (runtime p W H).run (MaroonRuntime.new W H) (aloneInputs writer l ts n) =
        some (alone, aloneEvents) ∧
      outputsOf taskId events = outputsOf 1 aloneEvents ∧
      (taskId ∉ fsm.activeTasks ↔ 1 ∉ alone.activeTasks)) ∧
    ∀ (W' : Type) (H' : PendingHeap) (writer' : W') (inputs' : List (Input W'))
      (alone : MaroonRuntime W' H') (aloneEvents : List (Event W')) (aloneId : MaroonTaskId),
      (runtime p W' H').run (MaroonRuntime.new W' H') inputs' = some (alone, aloneEvents) →
      scheduleCalls inputs' = [(writer', l, ts)] →
      Event.scheduled aloneId writer' l ts ∈ aloneEvents →
      (outputsOf taskId events <+: outputsOf aloneId aloneEvents ∨
        outputsOf aloneId aloneEvents <+: outputsOf taskId events) ∧
      (aloneId ∉ alone.activeTasks →
        outputsOf taskId events <+: outputsOf aloneId aloneEvents) ∧
      (taskId ∉ fsm.activeTasks →
        outputsOf aloneId aloneEvents <+: outputsOf taskId events) := by
  obtain ⟨n, cur, hsolo, hwrites, hgone⟩ := solo_of_run run fit launched
  refine ⟨?_, ?_, ?_⟩
  · intro write hmem
    rw [hwrites, List.mem_map] at hmem
    obtain ⟨output, _, rfl⟩ := hmem
    rfl
  · obtain ⟨alone, aloneEvents, halone, hat, hsame⟩ := alone_run H writer l ts hsolo
    refine ⟨n, alone, aloneEvents, halone, (outputsOf_eq hsame).symm, hgone.trans ?_⟩
    cases cur with
    | none => simp [Finmap.mem_iff, hat.2]
    | some c =>
      obtain ⟨_, _, description, hlookup⟩ := hat
      simpa using Finmap.mem_iff.mpr ⟨_, hlookup⟩
  · intro W' H' writer' inputs' alone aloneEvents aloneId halone hsingle haloneLaunched
    have fit' : IdsFit p inputs' := fun _ => by rw [hsingle, List.length_singleton]; decide
    have hforward := outputs_comparable run halone fit fit' launched haloneLaunched
    have hbackward := outputs_comparable halone run fit' fit haloneLaunched launched
    exact ⟨hforward.1, hbackward.2, hforward.2⟩

theorem interleaved_task_isolated : ∃ fsm events,
    (runtime ⟨false, true⟩ String .list).run (MaroonRuntime.new String .list) interleavedInputs =
      some (fsm, events) ∧
    ∃ (n : ℕ) (alone : MaroonRuntime String .list) (aloneEvents : List (Event String)),
      (runtime ⟨false, true⟩ String .list).run (MaroonRuntime.new String .list)
        (aloneInputs "second" (.delay 5 "hi") 3 n) = some (alone, aloneEvents) ∧
      outputsOf 2 events = outputsOf 1 aloneEvents := by
  obtain ⟨fsm, events, run⟩ := interleavedInputs_run
  have hevents : ((runtime ⟨false, true⟩ String .list).run (MaroonRuntime.new String .list)
      interleavedInputs).map Prod.snd = some events := by rw [run]; rfl
  have launched : Event.scheduled 2 "second" (.delay 5 "hi") 3 ∈ events := by
    have hall : ∀ os ∈ ((runtime ⟨false, true⟩ String .list).run (MaroonRuntime.new String .list)
        interleavedInputs).map Prod.snd, Event.scheduled 2 "second" (.delay 5 "hi") 3 ∈ os := by
      decide
    exact hall events hevents
  obtain ⟨_, ⟨n, alone, aloneEvents, halone, hsame, _⟩, _⟩ :=
    tasks_isolated run (fun h => by cases h) launched
  exact ⟨fsm, events, run, n, alone, aloneEvents, halone, hsame⟩

end RustExperiments.Maroon
