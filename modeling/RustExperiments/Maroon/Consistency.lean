/- module: RustExperiments/Maroon/Consistency
   digest: The pending operations and the active tasks are the same tasks in every run. -/

import Mathlib.Data.Multiset.Count
import RustExperiments.Maroon.Typing

set_option autoImplicit false
set_option relaxedAutoImplicit false

namespace RustExperiments.Maroon

open RustExperiments.Lib

variable {W : Type} {H : PendingHeap} {p : Profile}

def Event.taskId : Event W → Option MaroonTaskId
  | .scheduled taskId _ _ _ => some taskId
  | .executed taskId _ _ _ => some taskId
  | .idle => none

def Event.issued : Event W → Option MaroonTaskId
  | .scheduled taskId _ _ _ => some taskId
  | _ => none

/-- The task that returned `Done` in an event. -/
def Event.done : Event W → Option MaroonTaskId
  | .executed taskId _ _ true => some taskId
  | _ => none

def issuedIds (events : List (Event W)) : List MaroonTaskId := events.filterMap Event.issued

def doneIds (events : List (Event W)) : List MaroonTaskId := events.filterMap Event.done

def scheduleCalls (inputs : List (Input W)) : List (W × Launch × LogicalTimeAbsoluteMs) :=
  inputs.filterMap fun
    | .schedule writer l ts => some (writer, l, ts)
    | .iterate _ _ => none

def pendingIds (fsm : MaroonRuntime W H) : Multiset MaroonTaskId :=
  (H.elems fsm.pendingOperations).map TimestampedMaroonTask.taskId

@[simp] theorem issuedIds_append (xs ys : List (Event W)) :
    issuedIds (xs ++ ys) = issuedIds xs ++ issuedIds ys := List.filterMap_append ..

@[simp] theorem doneIds_append (xs ys : List (Event W)) :
    doneIds (xs ++ ys) = doneIds xs ++ doneIds ys := List.filterMap_append ..

@[simp] theorem scheduleCalls_append (xs ys : List (Input W)) :
    scheduleCalls (xs ++ ys) = scheduleCalls xs ++ scheduleCalls ys := List.filterMap_append ..

@[simp] theorem issuedIds_scheduled (taskId : MaroonTaskId) (writer : W) (l : Launch)
    (ts : LogicalTimeAbsoluteMs) : issuedIds [.scheduled taskId writer l ts] = [taskId] := rfl

@[simp] theorem issuedIds_executed (taskId : MaroonTaskId) (ts : LogicalTimeAbsoluteMs)
    (written : Option (W × String)) (done : Bool) :
    issuedIds [.executed taskId ts written done] = [] := rfl

@[simp] theorem issuedIds_idle : issuedIds [(.idle : Event W)] = [] := rfl

@[simp] theorem doneIds_scheduled (taskId : MaroonTaskId) (writer : W) (l : Launch)
    (ts : LogicalTimeAbsoluteMs) : doneIds [.scheduled taskId writer l ts] = [] := rfl

@[simp] theorem doneIds_finished (taskId : MaroonTaskId) (ts : LogicalTimeAbsoluteMs)
    (written : Option (W × String)) :
    doneIds [.executed taskId ts written true] = [taskId] := rfl

@[simp] theorem doneIds_requeued (taskId : MaroonTaskId) (ts : LogicalTimeAbsoluteMs)
    (written : Option (W × String)) :
    doneIds [.executed taskId ts written false] = [] := rfl

@[simp] theorem doneIds_idle : doneIds [(.idle : Event W)] = [] := rfl

theorem pendingIds_pop {fsm : MaroonRuntime W H} {t : TimestampedMaroonTask}
    {pending : H.Carrier} (popped : H.pop fsm.pendingOperations = some (t, pending)) :
    pendingIds fsm = t.taskId ::ₘ (H.elems pending).map TimestampedMaroonTask.taskId := by
  rw [pendingIds, (H.pop_some _ _ _ popped).1, Multiset.map_cons]

/-- What the two collections, the generator and the history say about each other. -/
structure Consistent (events : List (Event W)) (fsm : MaroonRuntime W H) : Prop where
  generator : fsm.taskIdGenerator.nextTaskId = (issuedIds events).length + 1
  issued : issuedIds events = List.range' 1 (issuedIds events).length
  nodup : (pendingIds fsm).Nodup
  pending_iff : ∀ taskId, taskId ∈ pendingIds fsm ↔ taskId ∈ fsm.activeTasks
  active_iff : ∀ taskId, taskId ∈ fsm.activeTasks ↔
    taskId ∈ issuedIds events ∧ taskId ∉ doneIds events
  done_issued : ∀ taskId ∈ doneIds events, taskId ∈ issuedIds events
  silent : events.Pairwise fun e f => ∀ taskId, e.done = some taskId → f.taskId ≠ some taskId

namespace Consistent

variable {events : List (Event W)} {fsm : MaroonRuntime W H}

theorem mem_issued_iff (c : Consistent events fsm) (taskId : MaroonTaskId) :
    taskId ∈ issuedIds events ↔ 1 ≤ taskId ∧ taskId < fsm.taskIdGenerator.nextTaskId := by
  rw [c.issued, List.mem_range'_1, c.generator, Nat.add_comm 1]

theorem issued_nodup (c : Consistent events fsm) : (issuedIds events).Nodup := by
  rw [c.issued]
  exact List.nodup_range'

theorem next_not_active (c : Consistent events fsm) :
    fsm.taskIdGenerator.nextTaskId ∉ fsm.activeTasks := by
  intro hactive
  have hissued := ((c.active_iff _).mp hactive).1
  exact absurd ((c.mem_issued_iff _).mp hissued).2 (lt_irrefl _)

theorem not_mem_of_done (c : Consistent events fsm) {taskId : MaroonTaskId}
    (h : taskId ∈ doneIds events) : taskId ∉ fsm.activeTasks ∧ taskId ∉ pendingIds fsm := by
  have hactive : taskId ∉ fsm.activeTasks := fun ha => ((c.active_iff _).mp ha).2 h
  exact ⟨hactive, fun hp => hactive ((c.pending_iff _).mp hp)⟩

theorem popped_active (c : Consistent events fsm) {t : TimestampedMaroonTask}
    {pending : H.Carrier} (popped : H.pop fsm.pendingOperations = some (t, pending)) :
    t.taskId ∈ fsm.activeTasks := by
  rw [← c.pending_iff, pendingIds_pop popped]
  exact Multiset.mem_cons_self _ _

theorem silent_snoc (c : Consistent events fsm) {f : Event W}
    (h : ∀ taskId, f.taskId = some taskId → taskId ∉ doneIds events) :
    (events ++ [f]).Pairwise fun e f => ∀ taskId, e.done = some taskId →
      f.taskId ≠ some taskId := by
  refine List.pairwise_append.mpr ⟨c.silent, List.pairwise_singleton _ _, ?_⟩
  intro e he g hg taskId hdone hsame
  obtain rfl := List.mem_singleton.mp hg
  exact h taskId hsame (List.mem_filterMap.mpr ⟨e, he, hdone⟩)

theorem initial : Consistent ([] : List (Event W)) (MaroonRuntime.new W H) where
  generator := rfl
  issued := rfl
  nodup := by simp [pendingIds, MaroonRuntime.new, H.elems_new]
  pending_iff := by
    simp [pendingIds, MaroonRuntime.new, H.elems_new, Finmap.notMem_empty]
  active_iff := by simp [MaroonRuntime.new, issuedIds, Finmap.notMem_empty]
  done_issued := by simp [doneIds]
  silent := List.Pairwise.nil

theorem after_schedule (c : Consistent events fsm) (writer : W) (l : Launch)
    (ts : LogicalTimeAbsoluteMs) (task : MaroonTask W) :
    Consistent (events ++ [.scheduled fsm.taskIdGenerator.nextTaskId writer l ts])
      (⟨⟨fsm.taskIdGenerator.nextTaskId + 1⟩,
        H.push fsm.pendingOperations ⟨ts, fsm.taskIdGenerator.nextTaskId⟩,
        fsm.activeTasks.insert fsm.taskIdGenerator.nextTaskId task⟩ : MaroonRuntime W H) := by
  have hfresh := c.next_not_active
  have hnotDone : fsm.taskIdGenerator.nextTaskId ∉ doneIds events := fun hd =>
    absurd ((c.mem_issued_iff _).mp (c.done_issued _ hd)).2 (lt_irrefl _)
  have hissued : issuedIds (events ++ [.scheduled fsm.taskIdGenerator.nextTaskId writer l ts]) =
      issuedIds events ++ [fsm.taskIdGenerator.nextTaskId] := by
    simp
  have hdone : doneIds (events ++ [.scheduled fsm.taskIdGenerator.nextTaskId writer l ts]) =
      doneIds events := by
    simp
  have hpending : pendingIds (⟨⟨fsm.taskIdGenerator.nextTaskId + 1⟩,
        H.push fsm.pendingOperations ⟨ts, fsm.taskIdGenerator.nextTaskId⟩,
        fsm.activeTasks.insert fsm.taskIdGenerator.nextTaskId task⟩ : MaroonRuntime W H) =
      fsm.taskIdGenerator.nextTaskId ::ₘ pendingIds fsm := by
    simp [pendingIds, H.elems_push]
  constructor
  · simp [c.generator]
  · rw [hissued, List.length_append, List.length_singleton, List.range'_1_concat, ← c.issued,
      c.generator, Nat.add_comm 1]
  · rw [hpending, Multiset.nodup_cons]
    exact ⟨fun h => hfresh ((c.pending_iff _).mp h), c.nodup⟩
  · intro taskId
    simp [hpending, c.pending_iff]
  · intro taskId
    simp only [Finmap.mem_insert, hissued, hdone, List.mem_append, List.mem_singleton,
      c.active_iff]
    constructor
    · rintro (rfl | ⟨h, hn⟩)
      · exact ⟨Or.inr rfl, hnotDone⟩
      · exact ⟨Or.inl h, hn⟩
    · rintro ⟨h | rfl, hn⟩
      · exact Or.inr ⟨h, hn⟩
      · exact Or.inl rfl
  · intro taskId h
    rw [hdone] at h
    rw [hissued]
    exact List.mem_append_left _ (c.done_issued _ h)
  · refine c.silent_snoc fun taskId h => ?_
    cases h
    exact hnotDone

theorem after_idle (c : Consistent events fsm) : Consistent (events ++ [.idle]) fsm where
  generator := by simpa using c.generator
  issued := by simpa using c.issued
  nodup := c.nodup
  pending_iff := c.pending_iff
  active_iff := by simpa using c.active_iff
  done_issued := by simpa using c.done_issued
  silent := c.silent_snoc fun _ h => by cases h

theorem after_finished (c : Consistent events fsm) {t : TimestampedMaroonTask}
    {pending : H.Carrier} (popped : H.pop fsm.pendingOperations = some (t, pending))
    (written : Option (W × String)) :
    Consistent (events ++ [.executed t.taskId t.scheduledTimestamp written true])
      (⟨fsm.taskIdGenerator, pending, fsm.activeTasks.erase t.taskId⟩ : MaroonRuntime W H) := by
  have hpop := pendingIds_pop popped
  have hactive := c.popped_active popped
  have hnodup := c.nodup
  rw [hpop, Multiset.nodup_cons] at hnodup
  have hissued : issuedIds (events ++ [.executed t.taskId t.scheduledTimestamp written true]) =
      issuedIds events := by
    simp
  have hdone : doneIds (events ++ [.executed t.taskId t.scheduledTimestamp written true]) =
      doneIds events ++ [t.taskId] := by
    simp
  constructor
  · simpa [hissued] using c.generator
  · simpa [hissued] using c.issued
  · exact hnodup.2
  · intro taskId
    have hiff := c.pending_iff taskId
    rw [hpop, Multiset.mem_cons] at hiff
    simp only [pendingIds, Finmap.mem_erase]
    constructor
    · intro h
      exact ⟨fun he => hnodup.1 (he ▸ h), hiff.mp (Or.inr h)⟩
    · rintro ⟨hne, h⟩
      exact (hiff.mpr h).resolve_left hne
  · intro taskId
    simp only [Finmap.mem_erase, hissued, hdone, List.mem_append, List.mem_singleton,
      c.active_iff]
    tauto
  · intro taskId h
    rw [hdone, List.mem_append, List.mem_singleton] at h
    rw [hissued]
    rcases h with h | rfl
    · exact c.done_issued _ h
    · exact ((c.active_iff _).mp hactive).1
  · refine c.silent_snoc fun taskId h => ?_
    cases h
    exact ((c.active_iff _).mp hactive).2

theorem after_requeued (c : Consistent events fsm) {t : TimestampedMaroonTask}
    {pending : H.Carrier} (popped : H.pop fsm.pendingOperations = some (t, pending))
    (written : Option (W × String)) (ts : LogicalTimeAbsoluteMs) (task : MaroonTask W) :
    Consistent (events ++ [.executed t.taskId t.scheduledTimestamp written false])
      (⟨fsm.taskIdGenerator, H.push pending ⟨ts, t.taskId⟩,
        fsm.activeTasks.insert t.taskId task⟩ : MaroonRuntime W H) := by
  have hpop := pendingIds_pop popped
  have hactive := c.popped_active popped
  have hpending : pendingIds (⟨fsm.taskIdGenerator, H.push pending ⟨ts, t.taskId⟩,
      fsm.activeTasks.insert t.taskId task⟩ : MaroonRuntime W H) = pendingIds fsm := by
    rw [hpop]
    simp [pendingIds, H.elems_push]
  have hissued : issuedIds (events ++ [.executed t.taskId t.scheduledTimestamp written false]) =
      issuedIds events := by
    simp
  have hdone : doneIds (events ++ [.executed t.taskId t.scheduledTimestamp written false]) =
      doneIds events := by
    simp
  have hmem : ∀ taskId, taskId ∈ fsm.activeTasks.insert t.taskId task ↔
      taskId ∈ fsm.activeTasks := by
    intro taskId
    rw [Finmap.mem_insert]
    constructor
    · rintro (rfl | h)
      · exact hactive
      · exact h
    · exact Or.inr
  constructor
  · simpa [hissued] using c.generator
  · simpa [hissued] using c.issued
  · rw [hpending]
    exact c.nodup
  · intro taskId
    rw [hpending, hmem]
    exact c.pending_iff taskId
  · intro taskId
    rw [hissued, hdone, hmem]
    exact c.active_iff taskId
  · intro taskId h
    rw [hdone] at h
    rw [hissued]
    exact c.done_issued _ h
  · refine c.silent_snoc fun taskId h => ?_
    cases h
    exact ((c.active_iff _).mp hactive).2

end Consistent

/-- Without overflow checks the generator must not have come round to an old identifier. -/
def IdsFit (p : Profile) (inputs : List (Input W)) : Prop :=
  p.overflowChecks = false → (scheduleCalls inputs).length < u64Size - 1

theorem IdsFit.of_append {is js : List (Input W)} (h : IdsFit p (is ++ js)) : IdsFit p is := by
  intro hp
  have hlen := h hp
  rw [scheduleCalls_append, List.length_append] at hlen
  omega

def Event.call : Event W → Option (W × Launch × LogicalTimeAbsoluteMs)
  | .scheduled _ writer l ts => some (writer, l, ts)
  | _ => none

theorem calls_of_run {inputs : List (Input W)} {fsm : MaroonRuntime W H} {events : List (Event W)}
    (run : (runtime p W H).run (MaroonRuntime.new W H) inputs = some (fsm, events)) :
    events.filterMap Event.call = scheduleCalls inputs := by
  refine Machine.run_invariant (runtime p W H) (fun is os _ =>
    os.filterMap Event.call = scheduleCalls is) rfl ?_ run
  intro is os s i t o _ inv hstep
  cases transition_of_step hstep <;> simp [inv, scheduleCalls, Event.call]

theorem scheduled_count {inputs : List (Input W)} {fsm : MaroonRuntime W H}
    {events : List (Event W)}
    (run : (runtime p W H).run (MaroonRuntime.new W H) inputs = some (fsm, events)) :
    (issuedIds events).length = (scheduleCalls inputs).length := by
  refine Machine.run_invariant (runtime p W H) (fun is os _ =>
    (issuedIds os).length = (scheduleCalls is).length) rfl ?_ run
  intro is os s i t o _ inv hstep
  cases transition_of_step hstep <;> simp [inv, scheduleCalls]

theorem consistent_of_run {inputs : List (Input W)} {fsm : MaroonRuntime W H}
    {events : List (Event W)}
    (run : (runtime p W H).run (MaroonRuntime.new W H) inputs = some (fsm, events))
    (fit : IdsFit p inputs) : Consistent events fsm := by
  refine Machine.run_invariant (runtime p W H) (fun is os s => IdsFit p is → Consistent os s)
    (fun _ => .initial) ?_ run fit
  intro is os s i t o hrun inv hstep fit
  have c := inv fit.of_append
  cases transition_of_step hstep with
  | scheduled writer l ts next advanced =>
    have hnext : next = s.taskIdGenerator.nextTaskId + 1 := by
      refine u64Add_exact advanced fun hchecks => ?_
      have hlen := fit hchecks
      rw [scheduleCalls_append, List.length_append, ← scheduled_count hrun] at hlen
      rw [c.generator]
      simp only [scheduleCalls, List.filterMap_cons, List.filterMap_nil,
        List.length_singleton] at hlen
      omega
    subst hnext
    exact c.after_schedule writer l ts _
  | idle => exact c.after_idle
  | finished cutoff writeResult t pending task popped due present step =>
    exact c.after_finished popped none
  | requeued cutoff writeResult t pending task written next popped due present step =>
    exact c.after_requeued popped _ _ _

theorem Consistent.no_missing_task {events : List (Event W)} {fsm : MaroonRuntime W H}
    (c : Consistent events fsm)
    (shaped : ∀ taskId task, fsm.activeTasks.lookup taskId = some task →
      Shaped task.maroonStack task.maroonHeap)
    (cutoff : LogicalTimeAbsoluteMs) (writeResult : Except String Unit) :
    executePendingOperationsIteration p fsm cutoff writeResult ≠ .error .missingTask := by
  intro herror
  rcases iteration_cases p fsm cutoff writeResult with ⟨_, heq⟩ | ⟨t, pending, hpop, _, heq⟩
  · rw [heq] at herror
    cases herror
  · obtain ⟨task, hlookup⟩ := Finmap.mem_iff.mp (c.popped_active hpop)
    rw [heq] at herror
    obtain ⟨op, hop⟩ := executeOperation_error { fsm with pendingOperations := pending } hlookup
      (shaped _ _ hlookup) herror
    cases hop

/-- Both collections always hold exactly the tasks that were scheduled and have not returned
`Done`, each of them once; finished tasks never come back. -/
theorem runtime_consistency {inputs : List (Input W)} {fsm : MaroonRuntime W H}
    {events : List (Event W)}
    (run : (runtime p W H).run (MaroonRuntime.new W H) inputs = some (fsm, events))
    (few : (scheduleCalls inputs).length < 2 ^ 64 - 1) :
    (pendingIds fsm).Nodup ∧
    (∀ taskId, taskId ∈ pendingIds fsm ↔ taskId ∈ fsm.activeTasks) ∧
    (∀ taskId ∈ pendingIds fsm, taskId < fsm.taskIdGenerator.nextTaskId ∧
      (issuedIds events).count taskId = 1) ∧
    (issuedIds events).length = (scheduleCalls inputs).length ∧
    (∀ taskId ∈ doneIds events, taskId ∉ pendingIds fsm ∧ taskId ∉ fsm.activeTasks) ∧
    (∀ before e after, events = before ++ e :: after → ∀ taskId, e.done = some taskId →
      ∀ f ∈ after, f.taskId ≠ some taskId) ∧
    (∀ taskId ∈ issuedIds events, taskId ∉ doneIds events →
      taskId ∈ pendingIds fsm ∧ taskId ∈ fsm.activeTasks) ∧
    ∀ cutoff writeResult,
      executePendingOperationsIteration p fsm cutoff writeResult ≠ .error .missingTask := by
  have c := consistent_of_run run fun _ => few
  refine ⟨c.nodup, c.pending_iff, ?_, scheduled_count run, ?_, ?_, ?_, ?_⟩
  · intro taskId h
    have hissued := ((c.active_iff _).mp ((c.pending_iff _).mp h)).1
    exact ⟨((c.mem_issued_iff _).mp hissued).2, List.count_eq_one_of_mem c.issued_nodup hissued⟩
  · intro taskId h
    exact (c.not_mem_of_done h).symm
  · rintro before e after rfl taskId hdone f hf
    have hpair := (List.pairwise_append.mp c.silent).2.1
    exact List.rel_of_pairwise_cons hpair hf taskId hdone
  · intro taskId hissued hnotDone
    have hactive := (c.active_iff _).mpr ⟨hissued, hnotDone⟩
    exact ⟨(c.pending_iff _).mpr hactive, hactive⟩
  · exact c.no_missing_task (tasks_shaped run)

theorem interleaved_runtime_consistency : ∃ fsm events,
    (runtime ⟨false, true⟩ String .list).run (MaroonRuntime.new String .list) interleavedInputs =
      some (fsm, events) ∧
    (pendingIds fsm).Nodup ∧ ∀ taskId, taskId ∈ pendingIds fsm ↔ taskId ∈ fsm.activeTasks := by
  obtain ⟨fsm, events, run⟩ := interleavedInputs_run
  have h := runtime_consistency run (by decide)
  exact ⟨fsm, events, run, h.1, h.2.1⟩

end RustExperiments.Maroon
