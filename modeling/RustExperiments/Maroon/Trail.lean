/- module: RustExperiments/Maroon/Trail
   digest: The steps of one task from its launch to its end, and what the shared runtime does of them. -/

import RustExperiments.Maroon.Isolation

set_option autoImplicit false
set_option relaxedAutoImplicit false

namespace RustExperiments.Maroon

open RustExperiments.Lib

/-- Steps of a task on its own from one activation to another, at times that do not go back. -/
inductive Trail (p : Profile) :
    Activation → List (LogicalTimeAbsoluteMs × String) → Activation → Prop where
  | rest (c : Activation) : Trail p c [] c
  | step {c mid last : Activation} {written : Option String}
      {outputs : List (LogicalTimeAbsoluteMs × String)}
      (first : stepTask p c = .ok (.requeued written mid)) (le : c.ts ≤ mid.ts)
      (others : Trail p mid outputs last) :
      Trail p c (written.toList.map (fun text => (c.ts, text)) ++ outputs) last

namespace Trail

variable {p : Profile} {c mid last : Activation}
  {outputs outputs' : List (LogicalTimeAbsoluteMs × String)}

theorem silent (first : stepTask p c = .ok (.requeued none mid)) (le : c.ts ≤ mid.ts)
    (others : Trail p mid outputs last) : Trail p c outputs last := step first le others

theorem writes {text : String} (first : stepTask p c = .ok (.requeued (some text) mid))
    (le : c.ts ≤ mid.ts) (others : Trail p mid outputs last) :
    Trail p c ((c.ts, text) :: outputs) last := step first le others

theorem le (h : Trail p c outputs last) : c.ts ≤ last.ts := by
  induction h with
  | rest c => exact le_refl c.ts
  | step _ le _ ih => exact le.trans ih

theorem after (h : Trail p c outputs last) :
    ∃ n, (solo p).after (some c) n = some (some last, outputs) := by
  induction h with
  | rest c => exact ⟨0, rfl⟩
  | step first _ _ ih =>
    obtain ⟨n, hn⟩ := ih
    refine ⟨1 + n, (solo p).after_add_iff.mpr ⟨_, _, _, ?_, hn, rfl⟩⟩
    exact (solo p).run_singleton.mpr (solo_step_requeued first)

theorem within (h : Trail p c outputs last) {n : ℕ} {cur : Option Activation}
    {os : List (LogicalTimeAbsoluteMs × String)}
    (hrun : (solo p).after (some c) n = some (cur, os)) :
    (∃ c', cur = some c' ∧ c'.ts ≤ last.ts) ∨
      ∃ k os', (solo p).after (some last) k = some (cur, os') := by
  induction h generalizing n os with
  | rest c => exact Or.inr ⟨n, os, hrun⟩
  | step first le others ih =>
    cases n with
    | zero =>
      cases hrun
      exact Or.inl ⟨_, rfl, le.trans others.le⟩
    | succ n =>
      rw [Nat.add_comm n 1] at hrun
      obtain ⟨_, _, o₂, hfirst, hothers, _⟩ := (solo p).after_add_iff.mp hrun
      have hstep := (solo p).run_singleton.mp hfirst
      rw [solo_step_requeued first] at hstep
      cases hstep
      exact ih hothers

section Completed

variable {ts : LogicalTimeAbsoluteMs} {heap : MaroonTaskHeap}

theorem completes (h : Trail p c outputs ⟨ts, [.state .completed], heap⟩) :
    ∃ steps, (solo p).after (some c) steps = some (none, outputs) := by
  obtain ⟨steps, hsteps⟩ := h.after
  refine ⟨steps + 1, (solo p).after_succ_iff.mpr
    ⟨_, _, [], hsteps, ?_, (List.append_nil _).symm⟩⟩
  exact solo_step_finished (stepTask_completed p ts heap)

theorem times (h : Trail p c outputs ⟨ts, [.state .completed], heap⟩) {k : ℕ} {c' : Activation}
    {os : List (LogicalTimeAbsoluteMs × String)}
    (hrun : (solo p).after (some c) k = some (some c', os)) : c'.ts ≤ ts := by
  rcases h.within hrun with ⟨c₁, heq, hle⟩ | ⟨j, os', hrest⟩
  · cases heq
    exact hle
  · cases j with
    | zero =>
      cases hrest
      exact le_refl ts
    | succ j =>
      rw [Nat.add_comm j 1] at hrest
      obtain ⟨_, _, _, hfirst, hothers, _⟩ := (solo p).after_add_iff.mp hrest
      have hstep := (solo p).run_singleton.mp hfirst
      rw [solo_step_finished (stepTask_completed p _ heap)] at hstep
      cases hstep
      rw [(solo p).after_of_final rfl j] at hothers
      cases hothers

/-- What the runtime that a task shares with others shows of it: a part of what the task writes
alone from the beginning, all of it once the task is gone, and it is gone once everything that
waits is later than the last of its steps. -/
theorem in_runtime {W : Type} {H : PendingHeap} {inputs : List (Input W)} {l : Launch}
    {start : LogicalTimeAbsoluteMs}
    (h : Trail p (l.activation start) outputs ⟨ts, [.state .completed], heap⟩)
    {fsm : MaroonRuntime W H} {events : List (Event W)}
    (run : (runtime p W H).run (MaroonRuntime.new W H) inputs = some (fsm, events))
    (fit : IdsFit p inputs) {taskId : MaroonTaskId} {writer : W}
    (launched : Event.scheduled taskId writer l start ∈ events) :
    outputsOf taskId events <+: outputs ∧
      (taskId ∉ fsm.activeTasks → outputsOf taskId events = outputs) ∧
      ((∀ t ∈ H.elems fsm.pendingOperations, ts < t.scheduledTimestamp) →
        taskId ∉ fsm.activeTasks) := by
  obtain ⟨steps, halone⟩ := h.completes
  obtain ⟨k, cur, reached, hsolo, hwrites, hcur⟩ :=
    (isolated_of_run run fit).follows _ _ _ _ launched
  have hbefore := (solo p).after_whole rfl halone hsolo
  rw [outputsOf_eq hwrites]
  cases cur with
  | none =>
    have hdone : reached = outputs :=
      hbefore.eq_of_length_le ((solo p).after_whole rfl hsolo halone).length_le
    exact ⟨hbefore, fun _ => hdone, fun _ =>
      ((consistent_of_run run fit).not_mem_of_done hcur).1⟩
  | some c =>
    refine ⟨hbefore, fun gone => ?_, fun late => ?_⟩
    · obtain ⟨description, hlookup⟩ := hcur.active
      exact absurd (Finmap.mem_iff.mpr ⟨_, hlookup⟩) gone
    · exact absurd (late _ hcur.queued) (Nat.not_lt.mpr (h.times hsolo))

end Completed

end Trail

end RustExperiments.Maroon
