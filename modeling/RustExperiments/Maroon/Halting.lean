/- module: RustExperiments/Maroon/Halting
   digest: Every launched task comes to its end, in any build and at any logical times. -/

import RustExperiments.Maroon.Isolation
import RustExperiments.Maroon.Rank

set_option autoImplicit false
set_option relaxedAutoImplicit false

namespace RustExperiments.Maroon

open RustExperiments.Lib

variable {p : Profile}

/-- The task is done, or has panicked, after at most this many steps. -/
def HaltsIn (p : Profile) : ℕ → Activation → Prop
  | 0, _ => False
  | n + 1, c => ∀ written next, stepTask p c = .ok (.requeued written next) → HaltsIn p n next

def Halts (p : Profile) (c : Activation) : Prop := ∃ n, HaltsIn p n c

/-- The shape of a task and the range of its counters, which its steps keep. -/
structure Ranked (stack : MaroonTaskStack) (heap : MaroonTaskHeap) : Prop where
  shaped : Shaped stack heap
  range : InRange stack heap

theorem launch_ranked {l : Launch} (h : l.IsU64) : Ranked l.stack l.heap :=
  ⟨launch_shaped l, launch_inRange h⟩

theorem Ranked.requeued {c next : Activation} {written : Option String}
    (h : Ranked c.stack c.heap) (step : stepTask p c = .ok (.requeued written next)) :
    Ranked next.stack next.heap ∧ rank next.stack next.heap < rank c.stack c.heap := by
  have hshaped := stepTask_shaped p c.ts h.shaped
  have hlowers := stepTask_lowers p c.ts h.shaped h.range
  rw [step] at hshaped hlowers
  exact ⟨⟨hshaped, hlowers.1⟩, hlowers.2⟩

theorem Ranked.finished {c : Activation} (h : Ranked c.stack c.heap)
    (step : stepTask p c = .ok .finished) : 0 < rank c.stack c.heap := by
  have hlowers := stepTask_lowers p c.ts h.shaped h.range
  rwa [step] at hlowers

theorem Ranked.panicked {c : Activation} {e : Panic} (h : Ranked c.stack c.heap)
    (step : stepTask p c = .error e) : p.overflowChecks = true ∧ ∃ op, e = .overflow op := by
  have hlowers := stepTask_lowers p c.ts h.shaped h.range
  rwa [step] at hlowers

/-- A task halts within its rank, by induction on the rank. -/
theorem Ranked.haltsIn {c : Activation} (h : Ranked c.stack c.heap) {n : ℕ}
    (bound : rank c.stack c.heap ≤ n) : HaltsIn p n c := by
  induction n generalizing c with
  | zero => exact absurd (h.shaped.rank_pos) (Nat.not_lt.mpr bound)
  | succ n ih =>
    intro written next step
    obtain ⟨hnext, hlt⟩ := h.requeued step
    exact ih hnext (by omega)

theorem Ranked.done {c : Activation} (h : Ranked c.stack c.heap)
    (wrapping : p.overflowChecks = false) : ∃ k ≤ rank c.stack c.heap, ∃ outputs,
      (solo p).after (some c) k = some (none, outputs) := by
  generalize hr : rank c.stack c.heap = r
  induction r using Nat.strong_induction_on generalizing c with
  | _ r ih =>
    subst hr
    cases hstep : stepTask p c with
    | error e =>
      have hchecks := (h.panicked hstep).1
      rw [wrapping] at hchecks
      cases hchecks
    | ok outcome =>
      cases outcome with
      | finished =>
        exact ⟨1, h.finished hstep, [], (solo p).run_singleton.mpr (solo_step_finished hstep)⟩
      | requeued written next =>
        obtain ⟨hnext, hlt⟩ := h.requeued hstep
        obtain ⟨k, hk, outputs, hrest⟩ := ih _ hlt hnext rfl
        have hone := (solo p).run_singleton.mpr (solo_step_requeued hstep)
        exact ⟨1 + k, by omega, _, (solo p).after_add_iff.mpr ⟨_, _, _, hone, hrest, rfl⟩⟩

theorem launch_halts {l : Launch} (h : l.IsU64) (ts : LogicalTimeAbsoluteMs) :
    Halts p (l.activation ts) :=
  ⟨_, Ranked.haltsIn (c := l.activation ts) (launch_ranked h) (le_refl _)⟩

section Runtime

variable {W : Type} {H : PendingHeap}

def TasksRanked (fsm : MaroonRuntime W H) : Prop :=
  ∀ taskId task, fsm.activeTasks.lookup taskId = some task →
    Ranked task.maroonStack task.maroonHeap

theorem tasks_ranked {inputs : List (Input W)} {fsm : MaroonRuntime W H}
    {events : List (Event W)}
    (run : (runtime p W H).run (MaroonRuntime.new W H) inputs = some (fsm, events))
    (typed : ∀ writer l ts, .schedule writer l ts ∈ inputs → l.IsU64) : TasksRanked fsm :=
  tasks_keep (fun _ _ _ h step => (h.requeued step).1)
    (fun writer l ts hmem => launch_ranked (typed writer l ts hmem)) run

/-- The steps that the tasks of the runtime have before them at most, all together. -/
def load (fsm : MaroonRuntime W H) : ℕ :=
  Table.weight (fun task => rank task.maroonStack task.maroonHeap) fsm.activeTasks

/-- Every executed step takes something off the load, whatever is queued, and when. -/
theorem load_lt {fsm mid : MaroonRuntime W H} (ranked : TasksRanked fsm)
    {cutoff : LogicalTimeAbsoluteMs} {writeResult : Except String Unit} {event : Event W}
    (turn : executePendingOperationsIteration p fsm cutoff writeResult = .ok (mid, event))
    (busy : event ≠ .idle) : TasksRanked mid ∧ load mid < load fsm := by
  have hstep : (runtime p W H).step fsm (.iterate cutoff writeResult) = some (mid, [event]) := by
    simp [runtime, runtimeStep, turn, Except.toOption]
  have htransition := transition_of_step hstep
  generalize hevents : [event] = events at htransition
  cases htransition with
  | idle =>
    cases hevents
    exact absurd rfl busy
  | finished _ _ t pending task popped due present step =>
    have hweight := Table.weight_erase (fun task : MaroonTask W =>
      rank task.maroonStack task.maroonHeap) fsm.activeTasks present
    have hpos := (ranked _ _ present).finished
      (c := ⟨t.scheduledTimestamp, task.maroonStack, task.maroonHeap⟩) step
    refine ⟨fun id other hlookup => ?_, by simp only [load] at hweight hpos ⊢; omega⟩
    rw [Table.lookup_erase_ite] at hlookup
    split_ifs at hlookup
    exact ranked id other hlookup
  | requeued _ _ t pending task written next popped due present step =>
    have hweight := Table.weight_replace (fun task : MaroonTask W =>
      rank task.maroonStack task.maroonHeap) fsm.activeTasks present
      { task with maroonStack := next.stack, maroonHeap := next.heap }
    obtain ⟨hnext, hlt⟩ := (ranked _ _ present).requeued
      (c := ⟨t.scheduledTimestamp, task.maroonStack, task.maroonHeap⟩) step
    refine ⟨fun id other hlookup => ?_, by simp only [load] at hweight hlt ⊢; omega⟩
    rw [Table.lookup_insert_ite] at hlookup
    split_ifs at hlookup
    · cases hlookup
      exact hnext
    · exact ranked id other hlookup

end Runtime

end RustExperiments.Maroon
