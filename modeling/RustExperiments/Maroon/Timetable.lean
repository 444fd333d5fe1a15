/- module: RustExperiments/Maroon/Timetable
   digest: When a drain is over, any mix of tasks has written exactly what is due. -/

import RustExperiments.Maroon.Factorial
import RustExperiments.Maroon.Fibonacci
import RustExperiments.Maroon.Termination

set_option autoImplicit false
set_option relaxedAutoImplicit false

namespace RustExperiments.Maroon

open RustExperiments.Lib

section Launches

variable (p : Profile) (ts : LogicalTimeAbsoluteMs)

/-- Everything that a launched task writes, and when. -/
def Launch.writes : Launch → List (LogicalTimeAbsoluteMs × String)
  | .delay t s => [(ts + t, formatDelayedMessage p t s)]
  | .divisors n => divisorsWrites p ts n
  | .fibonacci n => fibonacciWrites p ts n
  | .factorial n => factorialWrites ts n

/-- The logical time at which the task completes. -/
def Launch.ends : Launch → LogicalTimeAbsoluteMs
  | .delay t _ => ts + t
  | .divisors n => ts + 10 * total (divisorsDown n n)
  | .fibonacci n => ts + 5 * waits n
  | .factorial n => ts + 50 * naps n

def Launch.result : Launch → ℕ
  | .fibonacci n => Nat.fib n
  | .factorial n => n.factorial
  | _ => 0

/-- The task completes within the clock, and a build that checks for overflows meets none. -/
def Launch.Timely (l : Launch) : Prop :=
  l.ends ts < u64Size ∧ (p.overflowChecks = true → l.result < u64Size)

instance (l : Launch) : Decidable (l.Timely p ts) :=
  inferInstanceAs (Decidable (_ ∧ _))

end Launches

variable {p : Profile}

theorem delay_trail (ts t : ℕ) (s : String) (times : ts + t < u64Size) :
    Trail p ((Launch.delay t s).activation ts) [(ts + t, formatDelayedMessage p t s)]
      ⟨ts + t, [.state .completed], .empty⟩ := by
  have hwake : checkedArith .add (u64Add p.overflowChecks ts t) = .ok (ts + t) :=
    checkedArith_ok.mpr (u64Fit_of_lt times)
  have hbegin := stepTask_delayBegin p ts t s .empty
  rw [hwake, except_ok_bind] at hbegin
  refine .silent hbegin (Nat.le_add_right ts t) ?_
  exact .writes (stepTask_delayExecute p (ts + t) t s .empty) (le_refl _) (.rest _)

/-- All four kinds of tasks go from their launch to their end, writing what they should. -/
theorem Launch.Timely.trail {l : Launch} {ts : LogicalTimeAbsoluteMs} (h : l.Timely p ts) :
    ∃ heap, Trail p (l.activation ts) (l.writes p ts) ⟨l.ends ts, [.state .completed], heap⟩ := by
  obtain ⟨times, fits⟩ := h
  cases l with
  | delay t s => exact ⟨_, delay_trail ts t s times⟩
  | divisors n =>
    simp only [Launch.ends, total_divisorsDown, divisorsUpTo_self] at times ⊢
    exact divisors_trail ts n times
  | fibonacci n => exact fibonacci_trail ts n times fits
  | factorial n => exact ⟨_, factorial_trail ts n times fits⟩

theorem le_waits_succ (n : ℕ) : n ≤ waits (n + 1) := by
  rw [waits_succ]
  exact Nat.le_add_left n _

theorem le_naps (n : ℕ) : n ≤ naps n := by
  cases n with
  | zero => exact Nat.zero_le _
  | succ n =>
    rw [naps_succ]
    exact Nat.le_add_right _ _

theorem le_total_divisors (n : ℕ) : n ≤ total (divisorsDown n n) := by
  cases n with
  | zero => exact Nat.zero_le _
  | succ n =>
    rw [divisorsDown, if_pos (dvd_refl _), total_cons]
    exact Nat.le_add_right _ _

theorem Launch.Timely.isU64 {l : Launch} {ts : ℕ} (h : l.Timely p ts) :
    l.IsU64 := by
  cases l with
  | delay t s => exact (Nat.le_add_left t ts).trans_lt h.1
  | divisors n =>
    have times : ts + 10 * total (divisorsDown n n) < u64Size := h.1
    have hle := le_total_divisors n
    show n < u64Size
    omega
  | fibonacci n =>
    have times : ts + 5 * waits n < u64Size := h.1
    show n < u64Size
    rcases n with _ | _ | n
    · decide
    · decide
    · have hle := le_waits_succ (n + 1)
      omega
  | factorial n =>
    have times : ts + 50 * naps n < u64Size := h.1
    have hle := le_naps n
    show n < u64Size
    omega

namespace Trail

variable {c last : Activation} {outputs : List (LogicalTimeAbsoluteMs × String)}

theorem writes_between (h : Trail p c outputs last) :
    ∀ o ∈ outputs, c.ts ≤ o.1 ∧ o.1 ≤ last.ts := by
  induction h with
  | rest c => exact fun _ ho => absurd ho List.not_mem_nil
  | @step c mid last written outputs first le others ih =>
    intro o ho
    rcases List.mem_append.mp ho with hnow | hlater
    · obtain ⟨text, _, rfl⟩ := List.mem_map.mp hnow
      exact ⟨le_refl c.ts, le.trans others.le⟩
    · exact ⟨le.trans (ih o hlater).1, (ih o hlater).2⟩

variable {ts : LogicalTimeAbsoluteMs} {heap : MaroonTaskHeap}

theorem reached (h : Trail p c outputs ⟨ts, [.state .completed], heap⟩) {k : ℕ} {cur : Activation}
    {written : List (LogicalTimeAbsoluteMs × String)}
    (hrun : (solo p).after (some c) k = some (some cur, written)) :
    ∃ others, outputs = written ++ others ∧
      Trail p cur others ⟨ts, [.state .completed], heap⟩ := by
  generalize hlast : (⟨ts, [.state .completed], heap⟩ : Activation) = last at h
  induction h generalizing k written with
  | rest c =>
    subst hlast
    cases k with
    | zero =>
      cases hrun
      exact ⟨[], rfl, .rest _⟩
    | succ k =>
      rw [Nat.add_comm k 1] at hrun
      obtain ⟨_, _, _, hfirst, hothers, _⟩ := (solo p).after_add_iff.mp hrun
      have hstep := (solo p).run_singleton.mp hfirst
      rw [solo_step_finished (stepTask_completed p ts heap)] at hstep
      cases hstep
      rw [(solo p).after_of_final rfl k] at hothers
      cases hothers
  | step first le others ih =>
    cases k with
    | zero =>
      cases hrun
      subst hlast
      exact ⟨_, rfl, .step first le others⟩
    | succ k =>
      rw [Nat.add_comm k 1] at hrun
      obtain ⟨_, _, o₂, hfirst, hothers, rfl⟩ := (solo p).after_add_iff.mp hrun
      have hstep := (solo p).run_singleton.mp hfirst
      rw [solo_step_requeued first] at hstep
      cases hstep
      obtain ⟨rest, rfl, htrail⟩ := ih hothers hlast
      exact ⟨rest, (List.append_assoc _ _ _).symm, htrail⟩

theorem next (h : Trail p c outputs ⟨ts, [.state .completed], heap⟩) :
    (stepTask p c = .ok .finished ∧ c.ts = ts) ∨
      ∃ written mid, stepTask p c = .ok (.requeued written mid) ∧ c.ts ≤ mid.ts := by
  generalize hlast : (⟨ts, [.state .completed], heap⟩ : Activation) = last at h
  cases h with
  | rest c =>
    subst hlast
    exact Or.inl ⟨stepTask_completed p ts heap, rfl⟩
  | step first le others => exact Or.inr ⟨_, _, first, le⟩

end Trail

section Running

variable {W : Type} {H : PendingHeap} {inputs : List (Input W)} {fsm : MaroonRuntime W H}
  {events : List (Event W)}

def AllTimely (p : Profile) (inputs : List (Input W)) : Prop :=
  ∀ writer l ts, (writer, l, ts) ∈ scheduleCalls inputs → l.Timely p ts

/-- The timer has not been read beyond `T`. -/
def ReadUpTo (T : LogicalTimeAbsoluteMs) (inputs : List (Input W)) : Prop :=
  ∀ cutoff writeResult, .iterate cutoff writeResult ∈ inputs → cutoff ≤ T

theorem mem_scheduleCalls {writer : W} {l : Launch} {ts : LogicalTimeAbsoluteMs} :
    (writer, l, ts) ∈ scheduleCalls inputs ↔ .schedule writer l ts ∈ inputs := by
  simp only [scheduleCalls, List.mem_filterMap]
  constructor
  · rintro ⟨input, hmem, heq⟩
    cases input with
    | schedule writer' l' ts' =>
      cases heq
      exact hmem
    | iterate cutoff writeResult => cases heq
  · exact fun hmem => ⟨_, hmem, rfl⟩

theorem call_of_scheduled
    (run : (runtime p W H).run (MaroonRuntime.new W H) inputs = some (fsm, events))
    {taskId : MaroonTaskId} {writer : W} {l : Launch} {ts : LogicalTimeAbsoluteMs}
    (launched : Event.scheduled taskId writer l ts ∈ events) :
    (writer, l, ts) ∈ scheduleCalls inputs := by
  rw [← calls_of_run run]
  exact List.mem_filterMap.mpr ⟨_, launched, rfl⟩

theorem popped_on_trail
    (run : (runtime p W H).run (MaroonRuntime.new W H) inputs = some (fsm, events))
    (fit : IdsFit p inputs) {t : TimestampedMaroonTask} {pending : H.Carrier}
    (popped : H.pop fsm.pendingOperations = some (t, pending)) {task : MaroonTask W}
    (present : fsm.activeTasks.lookup t.taskId = some task) {writer : W} {l : Launch}
    {ts : LogicalTimeAbsoluteMs} (launched : Event.scheduled t.taskId writer l ts ∈ events)
    (timely : l.Timely p ts) :
    ∃ others heap, Trail p ⟨t.scheduledTimestamp, task.maroonStack, task.maroonHeap⟩ others
      ⟨l.ends ts, [.state .completed], heap⟩ := by
  obtain ⟨heap, htrail⟩ := timely.trail
  obtain ⟨_, n, outputs, hsolo, _⟩ := ((isolated_of_run run fit).follows _ _ _ _ launched).popped
    (consistent_of_run run fit) popped rfl present
  obtain ⟨others, _, hothers⟩ := htrail.reached hsolo
  exact ⟨others, heap, hothers⟩

theorem scheduled_of_active (consistent : Consistent events fsm) {taskId : MaroonTaskId}
    (active : taskId ∈ fsm.activeTasks) :
    ∃ writer l ts, Event.scheduled taskId writer l ts ∈ events := by
  obtain ⟨e, he, hissued⟩ := List.mem_filterMap.mp ((consistent.active_iff _).mp active).1
  cases e with
  | scheduled taskId' writer l ts =>
    cases hissued
    exact ⟨writer, l, ts, he⟩
  | executed => cases hissued
  | idle => cases hissued

/-- What the executor does with a popped operation: its task completes at its end or goes on at no
earlier time, and nothing panics. -/
theorem popped_steps
    (run : (runtime p W H).run (MaroonRuntime.new W H) inputs = some (fsm, events))
    (fit : IdsFit p inputs) (timely : AllTimely p inputs) {t : TimestampedMaroonTask}
    {pending : H.Carrier} (popped : H.pop fsm.pendingOperations = some (t, pending))
    {task : MaroonTask W} (present : fsm.activeTasks.lookup t.taskId = some task) :
    stepTask p ⟨t.scheduledTimestamp, task.maroonStack, task.maroonHeap⟩ = .ok .finished ∨
      ∃ written mid, stepTask p ⟨t.scheduledTimestamp, task.maroonStack, task.maroonHeap⟩ =
        .ok (.requeued written mid) ∧ t.scheduledTimestamp ≤ mid.ts := by
  obtain ⟨writer, l, ts, launched⟩ :=
    scheduled_of_active (consistent_of_run run fit) (Finmap.mem_iff.mpr ⟨task, present⟩)
  obtain ⟨others, heap, htrail⟩ := popped_on_trail run fit popped present launched
    (timely _ _ _ (call_of_scheduled run launched))
  exact htrail.next.imp_left And.left

theorem no_panic
    (run : (runtime p W H).run (MaroonRuntime.new W H) inputs = some (fsm, events))
    (fit : IdsFit p inputs) (timely : AllTimely p inputs) (cutoff : LogicalTimeAbsoluteMs)
    (writeResult : Except String Unit) (panic : Panic) :
    executePendingOperationsIteration p fsm cutoff writeResult ≠ .error panic := by
  intro hpanic
  rcases iteration_cases p fsm cutoff writeResult with ⟨_, heq⟩ | ⟨t, pending, hpop, _, heq⟩
  · rw [heq] at hpanic
    cases hpanic
  · obtain ⟨task, present⟩ :=
      Finmap.mem_iff.mp ((consistent_of_run run fit).popped_active hpop)
    rw [heq, executeOperation_eq p { fsm with pendingOperations := pending } _ _ present] at hpanic
    rcases popped_steps run fit timely hpop present with hstep | ⟨written, mid, hstep, _⟩
    · rw [hstep] at hpanic
      cases hpanic
    · rw [hstep] at hpanic
      cases hpanic

theorem executed_by
    (run : (runtime p W H).run (MaroonRuntime.new W H) inputs = some (fsm, events))
    {T : LogicalTimeAbsoluteMs} (read : ReadUpTo T inputs) :
    ∀ ts ∈ executedTimestamps events, ts ≤ T := by
  refine Machine.run_invariant (runtime p W H)
    (fun is os _ => ReadUpTo T is → ∀ ts ∈ executedTimestamps os, ts ≤ T)
    (fun _ _ h => absurd h List.not_mem_nil) ?_ run read
  intro is os s i t o _ inv hstep read ts hts
  have hold := inv fun cutoff writeResult hmem => read _ _ (List.mem_append_left _ hmem)
  rw [executedTimestamps, List.filterMap_append] at hts
  rcases List.mem_append.mp hts with h | h
  · exact hold ts h
  · have hnow : ∀ cutoff writeResult, i = .iterate cutoff writeResult → cutoff ≤ T :=
      fun cutoff writeResult heq => read _ writeResult (by simp [heq])
    cases transition_of_step hstep with
    | scheduled => cases h
    | idle => cases h
    | finished cutoff writeResult _ _ _ _ due =>
      cases List.mem_singleton.mp h
      exact due.trans (hnow _ _ rfl)
    | requeued cutoff writeResult _ _ _ _ _ _ due =>
      cases List.mem_singleton.mp h
      exact due.trans (hnow _ _ rfl)

theorem gone_by
    (run : (runtime p W H).run (MaroonRuntime.new W H) inputs = some (fsm, events))
    (fit : IdsFit p inputs) (timely : AllTimely p inputs) {T : LogicalTimeAbsoluteMs}
    (read : ReadUpTo T inputs) :
    ∀ taskId writer l ts, Event.scheduled taskId writer l ts ∈ events →
      taskId ∈ fsm.activeTasks ∨ l.ends ts ≤ T := by
  refine Machine.run_invariant (runtime p W H) (fun is os s =>
    IdsFit p is → AllTimely p is → ReadUpTo T is → ∀ taskId writer l ts,
      Event.scheduled taskId writer l ts ∈ os → taskId ∈ s.activeTasks ∨ l.ends ts ≤ T)
    (fun _ _ _ _ _ _ _ h => absurd h List.not_mem_nil) ?_ run fit timely read
  intro is os s i t o hrun inv hstep fit timely read taskId writer l ts launched
  have htimely : AllTimely p is := fun writer l ts hmem =>
    timely writer l ts (by rw [scheduleCalls_append]; exact List.mem_append_left _ hmem)
  have hold := inv fit.of_append htimely
    fun cutoff writeResult hmem => read _ _ (List.mem_append_left _ hmem)
  cases transition_of_step hstep with
  | scheduled writer' l' ts' next advanced =>
    rcases List.mem_append.mp launched with h | h
    · exact (hold _ _ _ _ h).imp_left fun hactive => Finmap.mem_insert.mpr (Or.inr hactive)
    · cases List.mem_singleton.mp h
      exact Or.inl (Finmap.mem_insert.mpr (Or.inl rfl))
  | idle => exact hold _ _ _ _ (by simpa using launched)
  | finished cutoff writeResult u pending task popped due present step =>
    have hlaunched : Event.scheduled taskId writer l ts ∈ os := by simpa using launched
    by_cases own : taskId = u.taskId
    · subst own
      obtain ⟨others, heap, htrail⟩ := popped_on_trail hrun fit.of_append popped present hlaunched
        (htimely _ _ _ (call_of_scheduled hrun hlaunched))
      rcases htrail.next with ⟨_, hat⟩ | ⟨written, mid, hnext, _⟩
      · exact Or.inr (hat ▸ due.trans (read cutoff writeResult (by simp)))
      · rw [step] at hnext
        cases hnext
    · exact (hold _ _ _ _ hlaunched).imp_left fun hactive =>
        Finmap.mem_erase.mpr ⟨own, hactive⟩
  | requeued cutoff writeResult u pending task written next popped due present step =>
    exact (hold _ _ _ _ (by simpa using launched)).imp_left fun hactive =>
      Finmap.mem_insert.mpr (Or.inr hactive)

/-- Once nothing due waits any more, a task has written exactly what is due of it, and it is still
active exactly if it ends later. -/
theorem written_by
    (run : (runtime p W H).run (MaroonRuntime.new W H) inputs = some (fsm, events))
    (fit : IdsFit p inputs) (timely : AllTimely p inputs) {T : LogicalTimeAbsoluteMs}
    (read : ReadUpTo T inputs)
    (drained : ∀ t ∈ H.elems fsm.pendingOperations, T < t.scheduledTimestamp)
    {taskId : MaroonTaskId} {writer : W} {l : Launch} {ts : LogicalTimeAbsoluteMs}
    (launched : Event.scheduled taskId writer l ts ∈ events) :
    writesOf taskId events = ((l.writes p ts).filter (·.1 ≤ T)).map (withWriter writer) ∧
      (taskId ∈ fsm.activeTasks ↔ T < l.ends ts) := by
  obtain ⟨heap, htrail⟩ := (timely _ _ _ (call_of_scheduled run launched)).trail
  obtain ⟨k, cur, outputs, hsolo, hwrites, hcur⟩ :=
    (isolated_of_run run fit).follows _ _ _ _ launched
  have hgone := gone_by run fit timely read _ _ _ _ launched
  cases cur with
  | none =>
    obtain ⟨steps, halone⟩ := htrail.completes
    have hwhole : outputs = l.writes p ts :=
      ((solo p).after_whole rfl halone hsolo).eq_of_length_le
        ((solo p).after_whole rfl hsolo halone).length_le
    have hnot := ((consistent_of_run run fit).not_mem_of_done hcur).1
    have hends : l.ends ts ≤ T := hgone.resolve_left hnot
    refine ⟨?_, iff_of_false hnot (Nat.not_lt.mpr hends)⟩
    rw [hwrites, hwhole, List.filter_eq_self.mpr]
    intro o ho
    exact decide_eq_true ((htrail.writes_between o ho).2.trans hends)
  | some c =>
    obtain ⟨others, hsplit, hothers⟩ := htrail.reached hsolo
    have hlate : T < c.ts := drained _ hcur.queued
    obtain ⟨description, hlookup⟩ := hcur.active
    refine ⟨?_, iff_of_true (Finmap.mem_iff.mpr ⟨_, hlookup⟩) (hlate.trans_le hothers.le)⟩
    -- What has been written was executed by `T`, and the rest comes at `c.ts` or later.
    have hearly : outputs.filter (·.1 ≤ T) = outputs := List.filter_eq_self.mpr fun o ho => by
      have hexecuted : o.1 ∈ executedTimestamps events := by
        have hmem : withWriter writer o ∈ writesOf taskId events :=
          hwrites ▸ List.mem_map_of_mem ho
        obtain ⟨e, he, hwrite⟩ := List.mem_filterMap.mp hmem
        refine List.mem_filterMap.mpr ⟨e, he, ?_⟩
        rcases e with _ | ⟨id, ts', _ | ⟨writer', text⟩, done⟩ | _
        · cases hwrite
        · cases hwrite
        · simp only [Event.write] at hwrite
          split_ifs at hwrite
          cases hwrite
          rfl
        · cases hwrite
      exact decide_eq_true (executed_by run read _ hexecuted)
    have hrest : others.filter (·.1 ≤ T) = [] := List.filter_eq_nil_iff.mpr fun o ho => by
      have hle := (hothers.writes_between o ho).1
      simpa using hlate.trans_le hle
    rw [hwrites, hsplit, List.filter_append, hearly, hrest, List.append_nil]

end Running

section Order

variable {W : Type} {H : PendingHeap} {inputs : List (Input W)} {mid fsm : MaroonRuntime W H}
  {events steps : List (Event W)} {T : LogicalTimeAbsoluteMs}

theorem calls_of_iterations (inputs : List (Input W)) (n : ℕ) (T : LogicalTimeAbsoluteMs) :
    scheduleCalls (inputs ++ List.replicate n (.iterate T (.ok ()))) = scheduleCalls inputs := by
  simp [scheduleCalls]

theorem idsFit_iterations (fit : IdsFit p inputs) (n : ℕ) (T : LogicalTimeAbsoluteMs) :
    IdsFit p (inputs ++ List.replicate n (.iterate T (.ok ()))) := fun hchecks => by
  rw [calls_of_iterations]
  exact fit hchecks

theorem allTimely_iterations (timely : AllTimely p inputs) (n : ℕ) (T : LogicalTimeAbsoluteMs) :
    AllTimely p (inputs ++ List.replicate n (.iterate T (.ok ()))) := fun writer l ts hmem =>
  timely writer l ts (calls_of_iterations inputs n T ▸ hmem)

theorem Drains.run (h : Drains p T mid (.ok fsm) steps) :
    (runtime p W H).run mid (List.replicate steps.length (.iterate T (.ok ()))) =
      some (fsm, steps) := by
  generalize hended : (Except.ok fsm : Except Panic (MaroonRuntime W H)) = ended at h
  induction h with
  | idle turn =>
    cases hended
    rw [(nothing_due turn).1]
    rfl
  | panicked turn => cases hended
  | step turn _ _ ih =>
    rw [List.length_cons, List.replicate_succ]
    exact (Machine.run_cons_iff _).mpr ⟨_, _, _, runtime_step_of_turn turn, ih hended, rfl⟩

theorem not_drains_panic
    (run : (runtime p W H).run (MaroonRuntime.new W H) inputs = some (mid, events))
    (fit : IdsFit p inputs) (timely : AllTimely p inputs) {panic : Panic} :
    ¬ Drains p T mid (.error panic) steps := by
  intro h
  generalize hended : (Except.error panic : Except Panic (MaroonRuntime W H)) = ended at h
  induction h generalizing inputs events with
  | idle turn => cases hended
  | panicked turn => exact no_panic run fit timely _ _ _ turn
  | step turn _ _ ih =>
    have hturn := (Machine.run_singleton _).mpr (runtime_step_of_turn turn)
    exact ih (Machine.run_append _ run hturn) (idsFit_iterations fit 1 T)
      (allTimely_iterations timely 1 T) hended

theorem executedTimestamps_append (xs ys : List (Event W)) :
    executedTimestamps (xs ++ ys) = executedTimestamps xs ++ executedTimestamps ys :=
  List.filterMap_append ..

theorem times_snoc {times : List LogicalTimeAbsoluteMs} {now : LogicalTimeAbsoluteMs}
    {queued : Multiset TimestampedMaroonTask} (sorted : times.Pairwise (· ≤ ·))
    (behind : ∀ ts ∈ times, ts ≤ now) (later : ∀ u ∈ queued, now ≤ u.scheduledTimestamp) :
    (times ++ [now]).Pairwise (· ≤ ·) ∧
      ∀ u ∈ queued, ∀ ts ∈ times ++ [now], ts ≤ u.scheduledTimestamp := by
  constructor
  · refine List.pairwise_append.mpr
      ⟨sorted, List.pairwise_singleton _ _, fun ts hts now' hnow => ?_⟩
    rw [List.mem_singleton.mp hnow]
    exact behind ts hts
  · intro u hu ts hts
    rcases List.mem_append.mp hts with h | h
    · exact (behind ts h).trans (later u hu)
    · rw [List.mem_singleton.mp h]
      exact later u hu

theorem executed_in_order
    (run : (runtime p W H).run (MaroonRuntime.new W H) inputs = some (mid, events))
    (fit : IdsFit p inputs) (timely : AllTimely p inputs) (n : ℕ)
    (iterations : (runtime p W H).run mid (List.replicate n (.iterate T (.ok ()))) =
      some (fsm, steps)) :
    (executedTimestamps steps).Pairwise (· ≤ ·) ∧
      ∀ t ∈ H.elems fsm.pendingOperations, ∀ ts ∈ executedTimestamps steps,
        ts ≤ t.scheduledTimestamp := by
  induction n generalizing fsm steps with
  | zero =>
    cases iterations
    exact ⟨List.Pairwise.nil, fun _ _ _ h => absurd h List.not_mem_nil⟩
  | succ n ih =>
    rw [List.replicate_succ'] at iterations
    obtain ⟨fsm₁, steps₁, last, hfirst, hlast, rfl⟩ := (Machine.run_append_iff _).mp iterations
    obtain ⟨hsorted, hlater⟩ := ih hfirst
    have hrun := Machine.run_append _ run hfirst
    rw [executedTimestamps_append]
    cases transition_of_step ((Machine.run_singleton _).mp hlast) with
    | idle =>
      rw [show executedTimestamps [(.idle : Event W)] = [] from rfl, List.append_nil]
      exact ⟨hsorted, hlater⟩
    | finished _ _ t pending task popped due present step =>
      have helems := (H.pop_some _ _ _ popped).1
      have hnow := hlater t (helems ▸ Multiset.mem_cons_self _ _)
      exact times_snoc hsorted hnow fun u hu =>
        popped_first popped (helems ▸ Multiset.mem_cons_of_mem hu)
    | requeued _ _ t pending task written next popped due present step =>
      have helems := (H.pop_some _ _ _ popped).1
      have hnow := hlater t (helems ▸ Multiset.mem_cons_self _ _)
      refine times_snoc hsorted hnow fun u hu => ?_
      rw [H.elems_push, Multiset.mem_cons] at hu
      rcases hu with rfl | hu
      · rcases popped_steps hrun (idsFit_iterations fit n T) (allTimely_iterations timely n T)
            popped present with hstep | ⟨_, _, hstep, hle⟩
        · rw [step] at hstep
          cases hstep
        · rw [step] at hstep
          cases hstep
          exact hle
      · exact popped_first popped (helems ▸ Multiset.mem_cons_of_mem hu)

end Order

section Together

variable {W : Type} {H : PendingHeap}

/-- The timestamp and the arguments of the `write_text` call of an event. -/
def Event.writes : Event W → Option (LogicalTimeAbsoluteMs × W × String)
  | .executed _ ts (some (writer, text)) _ => some (ts, writer, text)
  | _ => none

/-- Everything that was passed to `write_text`, in order. -/
def allWrites (events : List (Event W)) : List (LogicalTimeAbsoluteMs × W × String) :=
  events.filterMap Event.writes

def launches (events : List (Event W)) :
    List (MaroonTaskId × W × Launch × LogicalTimeAbsoluteMs) :=
  events.filterMap fun
    | .scheduled taskId writer l ts => some (taskId, writer, l, ts)
    | _ => none

theorem issuedIds_eq (events : List (Event W)) :
    issuedIds events = (launches events).map (·.1) := by
  rw [launches, List.map_filterMap]
  exact List.filterMap_congr fun e _ => by cases e <;> rfl

theorem calls_eq (events : List (Event W)) :
    events.filterMap Event.call = (launches events).map (·.2) := by
  rw [launches, List.map_filterMap]
  exact List.filterMap_congr fun e _ => by cases e <;> rfl

theorem mem_launches {events : List (Event W)}
    {launch : MaroonTaskId × W × Launch × LogicalTimeAbsoluteMs} :
    launch ∈ launches events ↔
      Event.scheduled launch.1 launch.2.1 launch.2.2.1 launch.2.2.2 ∈ events := by
  simp only [launches, List.mem_filterMap]
  constructor
  · rintro ⟨e, he, heq⟩
    cases e with
    | scheduled taskId writer l ts =>
      cases heq
      exact he
    | executed => cases heq
    | idle => cases heq
  · exact fun he => ⟨_, he, rfl⟩

theorem writes_flatMap {ids : List MaroonTaskId} (nodup : ids.Nodup) (e : Event W)
    (covered : ∀ id ∉ ids, writesOf id [e] = []) :
    ids.flatMap (fun id => writesOf id [e]) = allWrites [e] := by
  have hsilent : ∀ {e : Event W}, (∀ id, writesOf id [e] = []) → allWrites [e] = [] →
      ids.flatMap (fun id => writesOf id [e]) = allWrites [e] := fun hids hall => by
    rw [hall, List.flatMap_eq_nil_iff]
    exact fun id _ => hids id
  rcases e with _ | ⟨taskId, ts, _ | ⟨writer, text⟩, done⟩ | _
  · exact hsilent (fun _ => rfl) rfl
  · exact hsilent (fun _ => rfl) rfl
  · have hmem : taskId ∈ ids := by
      by_contra hnot
      simpa [writesOf, Event.write] using covered taskId hnot
    obtain ⟨before, after, rfl⟩ := List.append_of_mem hmem
    have hne := List.nodup_middle.mp nodup
    have hother : ∀ id ∈ before ++ after,
        writesOf id [Event.executed taskId ts (some (writer, text)) done] = [] := by
      intro id hid
      refine writesOf_other (fun heq => ?_) _ _ _
      exact (List.nodup_cons.mp hne).1 (heq ▸ hid)
    have hleft := List.flatMap_eq_nil_iff.mpr fun id hid => hother id (List.mem_append_left _ hid)
    have hright := List.flatMap_eq_nil_iff.mpr fun id hid => hother id (List.mem_append_right _ hid)
    rw [List.flatMap_append, List.flatMap_cons, hleft, hright]
    simp [writesOf, Event.write, allWrites, Event.writes]
  · exact hsilent (fun _ => rfl) rfl

theorem allWrites_perm {ids : List MaroonTaskId} (nodup : ids.Nodup) (events : List (Event W))
    (covered : ∀ id ∉ ids, writesOf id events = []) :
    (allWrites events).Perm (ids.flatMap fun id => writesOf id events) := by
  induction events with
  | nil =>
    have hnone : ids.flatMap (fun id => writesOf id ([] : List (Event W))) = [] :=
      List.flatMap_eq_nil_iff.mpr fun _ _ => rfl
    rw [hnone]
    exact List.Perm.nil
  | cons e events ih =>
    have hsplit : ∀ id, writesOf id (e :: events) = writesOf id [e] ++ writesOf id events :=
      fun id => writesOf_append id [e] events
    have hboth : ∀ id ∉ ids, writesOf id [e] = [] ∧ writesOf id events = [] := fun id hid =>
      List.append_eq_nil_iff.mp (hsplit id ▸ covered id hid)
    have hall : allWrites (e :: events) = allWrites [e] ++ allWrites events :=
      List.filterMap_append (l := [e])
    simp only [hsplit]
    rw [hall, ← writes_flatMap nodup e fun id hid => (hboth id hid).1]
    exact ((ih fun id hid => (hboth id hid).2).append_left _).trans
      (List.flatMap_append_perm ids _ _)

theorem allWrites_times (events : List (Event W)) :
    ((allWrites events).map (·.1)).Sublist (executedTimestamps events) := by
  induction events with
  | nil => exact List.Sublist.refl _
  | cons e events ih =>
    rcases e with _ | ⟨taskId, ts, _ | ⟨writer, text⟩, done⟩ | _
    · exact ih
    · exact ih.cons ts
    · exact ih.cons_cons ts
    · exact ih

variable {inputs : List (Input W)} {mid : MaroonRuntime W H} {events : List (Event W)}
  {T : LogicalTimeAbsoluteMs}

/-- What the calls to `schedule` let be seen by `T`, each call on its own. -/
def dueWrites (p : Profile) (T : LogicalTimeAbsoluteMs)
    (call : W × Launch × LogicalTimeAbsoluteMs) : List (LogicalTimeAbsoluteMs × W × String) :=
  ((call.2.1.writes p call.2.2).filter (·.1 ≤ T)).map (withWriter call.1)

/-- After any launches that complete within the clock and any iterations of the executor, a drain at
a time that the timer has not passed comes to its end without a panic. It writes in the order of the
timestamps. Every task has then written exactly what is due of it, whatever ran beside it, and is
still there exactly if it ends later; and all writes together are the due ones of the launches. -/
theorem drain_shows (run : (runtime p W H).run (MaroonRuntime.new W H) inputs = some (mid, events))
    (fit : IdsFit p inputs) (timely : AllTimely p inputs) (read : ReadUpTo T inputs) :
    ∃ fsm steps, Drained p T mid (.ok fsm) steps ∧
      (allWrites steps).Pairwise (fun w v => w.1 ≤ v.1) ∧
      (∀ taskId writer l ts, Event.scheduled taskId writer l ts ∈ events →
        writesOf taskId (events ++ steps) = dueWrites p T (writer, l, ts) ∧
        (taskId ∈ fsm.activeTasks ↔ T < l.ends ts)) ∧
      (allWrites (events ++ steps)).Perm ((scheduleCalls inputs).flatMap (dueWrites p T)) := by
  have reachable : Reachable p mid := ⟨inputs, events, run, fit, fun writer l ts hmem =>
    (timely writer l ts (mem_scheduleCalls.mpr hmem)).isU64⟩
  obtain ⟨ended, steps, hdrains⟩ := reachable.drains T
  cases ended with
  | error panic => exact absurd hdrains (not_drains_panic run fit timely)
  | ok fsm =>
  refine ⟨fsm, steps, hdrains.drained, ?_, ?_⟩
  · have hsorted := (executed_in_order run fit timely _ hdrains.run).1
    exact List.pairwise_map.mp (hsorted.sublist (allWrites_times steps))
  -- The drain continues the run, without launches, and leaves nothing due.
  have hrun := Machine.run_append _ run hdrains.run
  have hfit := idsFit_iterations fit steps.length T
  have htimely := allTimely_iterations timely steps.length T
  have hread : ReadUpTo T (inputs ++ List.replicate steps.length (.iterate T (.ok ()))) := by
    intro cutoff writeResult hmem
    rcases List.mem_append.mp hmem with hold | hnew
    · exact read _ _ hold
    · cases List.eq_of_mem_replicate hnew
      exact le_refl T
  have hwritten : ∀ taskId writer l ts, Event.scheduled taskId writer l ts ∈ events ++ steps →
      writesOf taskId (events ++ steps) = dueWrites p T (writer, l, ts) ∧
        (taskId ∈ fsm.activeTasks ↔ T < l.ends ts) := fun taskId writer l ts launched =>
    written_by hrun hfit htimely hread hdrains.none_left launched
  refine ⟨fun taskId writer l ts launched => hwritten _ _ _ _ (List.mem_append_left _ launched), ?_⟩
  have consistent := consistent_of_run hrun hfit
  have hperm := allWrites_perm consistent.issued_nodup (events ++ steps)
    (isolated_of_run hrun hfit).unissued
  refine hperm.trans (List.Perm.of_eq ?_)
  rw [issuedIds_eq, List.flatMap_map, ← calls_of_iterations inputs steps.length T,
    ← calls_of_run hrun, calls_eq, List.flatMap_map]
  refine List.flatMap_congr fun launch hlaunch => ?_
  exact (hwritten _ _ _ _ (mem_launches.mp hlaunch)).1

def threeDivisorsInputs : List (Input String) :=
  [.schedule "writer" (.divisors 8) 10000, .schedule "writer" (.divisors 9) 10001,
    .schedule "writer" (.divisors 3) 10002]

theorem three_divisors_shown : ∃ mid events fsm steps,
    (runtime ⟨true, true⟩ String .list).run (MaroonRuntime.new String .list) threeDivisorsInputs =
      some (mid, events) ∧
    Drained ⟨true, true⟩ 20000 mid (.ok fsm) steps ∧
    (allWrites steps).Pairwise (fun w v => w.1 ≤ v.1) ∧
    (allWrites (events ++ steps)).Perm
      ([(10080, "8%8==0"), (10120, "8%4==0"), (10140, "8%2==0"), (10150, "8%1==0"), (10150, "8!"),
        (10091, "9%9==0"), (10121, "9%3==0"), (10131, "9%1==0"), (10131, "9!"),
        (10032, "3%3==0"), (10042, "3%1==0"), (10042, "3!")].map (withWriter "writer")) := by
  have hrun : ((runtime ⟨true, true⟩ String .list).run (MaroonRuntime.new String .list)
      threeDivisorsInputs).isSome := by decide
  obtain ⟨⟨mid, events⟩, run⟩ := Option.isSome_iff_exists.mp hrun
  have timely : ∀ call ∈ scheduleCalls threeDivisorsInputs,
      call.2.1.Timely ⟨true, true⟩ call.2.2 := by decide
  obtain ⟨fsm, steps, hdrained, hsorted, _, hall⟩ := drain_shows (T := 20000) run
    (fun h => by cases h) (fun writer l ts hmem => timely (writer, l, ts) hmem)
    fun cutoff writeResult hmem => by simp [threeDivisorsInputs] at hmem
  refine ⟨mid, events, fsm, steps, run, hdrained, hsorted, hall.trans (List.Perm.of_eq ?_)⟩
  decide +kernel

end Together

end RustExperiments.Maroon
