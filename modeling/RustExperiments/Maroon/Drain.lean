/- module: RustExperiments/Maroon/Drain
   digest: The executor loop at a fixed timer reading ends, in order, and two of them compose. -/

import RustExperiments.Maroon.Halting

set_option autoImplicit false
set_option relaxedAutoImplicit false

namespace RustExperiments.Maroon

open RustExperiments.Lib

variable {W : Type} {H : PendingHeap}

/-- `execute_pending_operations_inner` with the timer at `cutoff`, for at most `fuel` turns of its
loop; a write in turn `k` ends with `writeResults k`. Says how the loop was left, and after
which steps. -/
def executePendingOperationsInner (p : Profile) (cutoff : LogicalTimeAbsoluteMs) :
    ℕ → (ℕ → Except String Unit) → MaroonRuntime W H →
      Option (Except Panic (MaroonRuntime W H) × List (Event W))
  | 0, _, _ => none
  | fuel + 1, writeResults, fsm =>
    match executePendingOperationsIteration p fsm cutoff (writeResults 0) with
    | .error panic => some (.error panic, [])
    | .ok (fsm, .idle) => some (.ok fsm, [])
    | .ok (fsm, event) =>
      (executePendingOperationsInner p cutoff fuel (fun k => writeResults (k + 1)) fsm).map
        fun drained => (drained.1, event :: drained.2)

/-- Draining at `cutoff` is left like this after these steps, whatever the writes end with. -/
def Drained (p : Profile) (cutoff : LogicalTimeAbsoluteMs) (fsm : MaroonRuntime W H)
    (ended : Except Panic (MaroonRuntime W H)) (steps : List (Event W)) : Prop :=
  ∀ writeResults, ∃ fuel,
    executePendingOperationsInner p cutoff fuel writeResults fsm = some (ended, steps)

inductive Drains (p : Profile) (cutoff : LogicalTimeAbsoluteMs) :
    MaroonRuntime W H → Except Panic (MaroonRuntime W H) → List (Event W) → Prop where
  | idle {fsm fsm' : MaroonRuntime W H}
      (turn : executePendingOperationsIteration p fsm cutoff (.ok ()) = .ok (fsm', .idle)) :
      Drains p cutoff fsm (.ok fsm') []
  | panicked {fsm : MaroonRuntime W H} {panic : Panic}
      (turn : executePendingOperationsIteration p fsm cutoff (.ok ()) = .error panic) :
      Drains p cutoff fsm (.error panic) []
  | step {fsm mid : MaroonRuntime W H} {event : Event W}
      {ended : Except Panic (MaroonRuntime W H)} {steps : List (Event W)}
      (turn : executePendingOperationsIteration p fsm cutoff (.ok ()) = .ok (mid, event))
      (busy : event ≠ .idle) (rest : Drains p cutoff mid ended steps) :
      Drains p cutoff fsm ended (event :: steps)

section Turns

variable {p : Profile} {cutoff : LogicalTimeAbsoluteMs} {fsm : MaroonRuntime W H}

theorem iteration_write (p : Profile) (fsm : MaroonRuntime W H) (cutoff : LogicalTimeAbsoluteMs)
    (writeResult : Except String Unit) :
    executePendingOperationsIteration p fsm cutoff writeResult =
      executePendingOperationsIteration p fsm cutoff (.ok ()) := rfl

theorem inner_succ (fuel : ℕ) (writeResults : ℕ → Except String Unit) {mid : MaroonRuntime W H}
    {event : Event W}
    (turn : executePendingOperationsIteration p fsm cutoff (.ok ()) = .ok (mid, event))
    (busy : event ≠ .idle) :
    executePendingOperationsInner p cutoff (fuel + 1) writeResults fsm =
      (executePendingOperationsInner p cutoff fuel (fun k => writeResults (k + 1)) mid).map
        fun drained => (drained.1, event :: drained.2) := by
  rw [executePendingOperationsInner, iteration_write, turn]
  cases event with
  | idle => exact absurd rfl busy
  | _ => rfl

theorem Drains.drained {ended : Except Panic (MaroonRuntime W H)} {steps : List (Event W)}
    (h : Drains p cutoff fsm ended steps) : Drained p cutoff fsm ended steps := by
  induction h with
  | idle turn =>
    exact fun writeResults => ⟨1, by rw [executePendingOperationsInner, iteration_write, turn]⟩
  | panicked turn =>
    exact fun writeResults => ⟨1, by rw [executePendingOperationsInner, iteration_write, turn]⟩
  | step turn busy _ ih =>
    intro writeResults
    obtain ⟨fuel, hfuel⟩ := ih fun k => writeResults (k + 1)
    exact ⟨fuel + 1, by rw [inner_succ fuel writeResults turn busy, hfuel]; rfl⟩

theorem drains_of_inner {fuel : ℕ} {writeResults : ℕ → Except String Unit}
    {ended : Except Panic (MaroonRuntime W H)} {steps : List (Event W)}
    (h : executePendingOperationsInner p cutoff fuel writeResults fsm = some (ended, steps)) :
    Drains p cutoff fsm ended steps := by
  induction fuel generalizing fsm writeResults steps with
  | zero => cases h
  | succ fuel ih =>
    rcases hturn : executePendingOperationsIteration p fsm cutoff (.ok ()) with
      panic | ⟨mid, event⟩
    · rw [executePendingOperationsInner, iteration_write, hturn] at h
      cases h
      exact .panicked hturn
    · by_cases busy : event = .idle
      · subst busy
        rw [executePendingOperationsInner, iteration_write, hturn] at h
        cases h
        exact .idle hturn
      · rw [inner_succ fuel writeResults hturn busy] at h
        obtain ⟨⟨ended', steps'⟩, hrest, heq⟩ := Option.map_eq_some_iff.mp h
        cases heq
        exact .step hturn busy (ih hrest)

theorem Drained.drains {ended : Except Panic (MaroonRuntime W H)} {steps : List (Event W)}
    (h : Drained p cutoff fsm ended steps) : Drains p cutoff fsm ended steps := by
  obtain ⟨fuel, hfuel⟩ := h fun _ => .ok ()
  exact drains_of_inner hfuel

theorem Drains.unique {ended ended' : Except Panic (MaroonRuntime W H)}
    {steps steps' : List (Event W)} (h : Drains p cutoff fsm ended steps)
    (h' : Drains p cutoff fsm ended' steps') : ended = ended' ∧ steps = steps' := by
  induction h generalizing steps' with
  | idle turn =>
    cases h' with
    | idle turn' =>
      rw [turn] at turn'
      cases turn'
      exact ⟨rfl, rfl⟩
    | panicked turn' =>
      rw [turn] at turn'
      cases turn'
    | step turn' busy _ =>
      rw [turn] at turn'
      cases turn'
      exact absurd rfl busy
  | panicked turn =>
    cases h' with
    | idle turn' =>
      rw [turn] at turn'
      cases turn'
    | panicked turn' =>
      rw [turn] at turn'
      cases turn'
      exact ⟨rfl, rfl⟩
    | step turn' _ _ =>
      rw [turn] at turn'
      cases turn'
  | step turn busy _ ih =>
    cases h' with
    | idle turn' =>
      rw [turn] at turn'
      cases turn'
      exact absurd rfl busy
    | panicked turn' =>
      rw [turn] at turn'
      cases turn'
    | step turn' _ rest' =>
      rw [turn] at turn'
      cases turn'
      obtain ⟨rfl, rfl⟩ := ih rest'
      exact ⟨rfl, rfl⟩

/-- A turn that finds something due does the same under any later cutoff. -/
theorem iteration_later {later : LogicalTimeAbsoluteMs} (h : cutoff ≤ later)
    (busy : ∀ fsm', executePendingOperationsIteration p fsm cutoff (.ok ()) ≠ .ok (fsm', .idle)) :
    executePendingOperationsIteration p fsm later (.ok ()) =
      executePendingOperationsIteration p fsm cutoff (.ok ()) := by
  rcases iteration_cases p fsm cutoff (.ok ()) with ⟨_, heq⟩ | ⟨t, pending, hpop, hdue, heq⟩
  · exact absurd heq (busy fsm)
  · rcases iteration_cases p fsm later (.ok ()) with ⟨hnone, _⟩ | ⟨t', pending', hpop', _, heq'⟩
    · have hmem : t ∈ H.elems fsm.pendingOperations := by
        rw [(H.pop_some _ _ _ hpop).1]
        exact Multiset.mem_cons_self _ _
      exact absurd (hnone t hmem) (Nat.not_lt.mpr (hdue.trans h))
    · rw [hpop] at hpop'
      cases hpop'
      rw [heq, heq']

theorem iteration_later_ok {later : LogicalTimeAbsoluteMs} (h : cutoff ≤ later)
    {mid : MaroonRuntime W H} {event : Event W}
    (turn : executePendingOperationsIteration p fsm cutoff (.ok ()) = .ok (mid, event))
    (busy : event ≠ .idle) :
    executePendingOperationsIteration p fsm later (.ok ()) = .ok (mid, event) := by
  rw [iteration_later h fun fsm' heq => ?_, turn]
  rw [turn] at heq
  cases heq
  exact busy rfl

theorem nothing_due {fsm' : MaroonRuntime W H}
    (turn : executePendingOperationsIteration p fsm cutoff (.ok ()) = .ok (fsm', .idle)) :
    fsm' = fsm ∧ ∀ t ∈ H.elems fsm.pendingOperations, cutoff < t.scheduledTimestamp := by
  rcases iteration_cases p fsm cutoff (.ok ()) with ⟨hnone, heq⟩ | ⟨t, pending, _, _, heq⟩
  · rw [heq] at turn
    cases turn
    exact ⟨rfl, hnone⟩
  · rw [heq] at turn
    cases hlookup : fsm.activeTasks.lookup t.taskId with
    | none => simp [executeOperation, hlookup] at turn
    | some task =>
      rw [executeOperation_eq p { fsm with pendingOperations := pending } _ _ hlookup] at turn
      cases hsolo : stepTask p ⟨t.scheduledTimestamp, task.maroonStack, task.maroonHeap⟩ with
      | error e => simp [hsolo, Except.map] at turn
      | ok outcome => cases outcome <;> simp [hsolo, Except.map, settle] at turn

theorem Drains.compose {later : LogicalTimeAbsoluteMs} (h : cutoff ≤ later)
    {mid : MaroonRuntime W H} {ended : Except Panic (MaroonRuntime W H)}
    {steps₁ steps₂ : List (Event W)} (first : Drains p cutoff fsm (.ok mid) steps₁)
    (second : Drains p later mid ended steps₂) : Drains p later fsm ended (steps₁ ++ steps₂) := by
  generalize hended : (Except.ok mid : Except Panic (MaroonRuntime W H)) = left at first
  induction first with
  | idle turn =>
    cases hended
    obtain ⟨rfl, _⟩ := nothing_due turn
    exact second
  | panicked turn => cases hended
  | step turn busy _ ih => exact .step (iteration_later_ok h turn busy) busy (ih hended)

theorem Drains.panic_later {later : LogicalTimeAbsoluteMs} (h : cutoff ≤ later) {panic : Panic}
    {steps : List (Event W)} (first : Drains p cutoff fsm (.error panic) steps) :
    Drains p later fsm (.error panic) steps := by
  generalize hended : (Except.error panic : Except Panic (MaroonRuntime W H)) = left at first
  induction first with
  | idle turn => cases hended
  | panicked turn =>
    cases hended
    refine .panicked ((iteration_later h fun fsm' heq => ?_).trans turn)
    rw [turn] at heq
    cases heq
  | step turn busy _ ih => exact .step (iteration_later_ok h turn busy) busy (ih hended)

end Turns

section Reachable

/-- A state that the runtime can be in: after any launches with `u64` parameters and any turns of
the executor, without identifiers that came round. -/
def Reachable (p : Profile) (fsm : MaroonRuntime W H) : Prop :=
  ∃ inputs events, (runtime p W H).run (MaroonRuntime.new W H) inputs = some (fsm, events) ∧
    IdsFit p inputs ∧ ∀ writer l ts, .schedule writer l ts ∈ inputs → l.IsU64

variable {p : Profile} {cutoff : LogicalTimeAbsoluteMs} {fsm : MaroonRuntime W H}

theorem Reachable.consistent (h : Reachable p fsm) : ∃ events, Consistent events fsm := by
  obtain ⟨inputs, events, run, fit, _⟩ := h
  exact ⟨events, consistent_of_run run fit⟩

theorem runtime_step_of_turn {mid : MaroonRuntime W H} {event : Event W}
    (turn : executePendingOperationsIteration p fsm cutoff (.ok ()) = .ok (mid, event)) :
    (runtime p W H).step fsm (.iterate cutoff (.ok ())) = some (mid, [event]) := by
  simp [runtime, runtimeStep, turn, Except.toOption]

theorem Reachable.turn (h : Reachable p fsm) {mid : MaroonRuntime W H} {event : Event W}
    (turn : executePendingOperationsIteration p fsm cutoff (.ok ()) = .ok (mid, event)) :
    Reachable p mid := by
  obtain ⟨inputs, events, run, fit, typed⟩ := h
  refine ⟨inputs ++ [.iterate cutoff (.ok ())], events ++ [event],
    (runtime p W H).run_append run
      (((runtime p W H).run_singleton).mpr (runtime_step_of_turn turn)), fun hchecks => ?_, ?_⟩
  · rw [scheduleCalls_append, List.length_append]
    exact fit hchecks
  · intro writer l ts hmem
    rcases List.mem_append.mp hmem with hold | hnew
    · exact typed _ _ _ hold
    · cases List.mem_singleton.mp hnew

theorem Reachable.popped (h : Reachable p fsm) {t : TimestampedMaroonTask} {pending : H.Carrier}
    (popped : H.pop fsm.pendingOperations = some (t, pending)) :
    (∃ task, fsm.activeTasks.lookup t.taskId = some task) ∧
      (∀ u ∈ H.elems pending, u.taskId ≠ t.taskId) ∧
      ∀ u ∈ H.elems fsm.pendingOperations, u = t ∨ u ∈ H.elems pending := by
  obtain ⟨events, consistent⟩ := h.consistent
  have hids := pendingIds_pop popped
  have hnodup := consistent.nodup
  rw [hids, Multiset.nodup_cons] at hnodup
  refine ⟨Finmap.mem_iff.mp (consistent.popped_active popped), fun u hu heq => ?_, fun u hu => ?_⟩
  · exact hnodup.1 (heq ▸ Multiset.mem_map_of_mem _ hu)
  · rwa [(H.pop_some _ _ _ popped).1, Multiset.mem_cons] at hu

theorem Reachable.panic (h : Reachable p fsm) {panic : Panic}
    (turn : executePendingOperationsIteration p fsm cutoff (.ok ()) = .error panic) :
    ∃ op, panic = .overflow op := by
  obtain ⟨inputs, events, run, fit, _⟩ := h
  have hshape := (reachable_tasks_well_typed run).2 cutoff (.ok ()) panic turn
  have hpresent := (consistent_of_run run fit).no_missing_task (p := p) (tasks_shaped run) cutoff
    (.ok ())
  cases panic with
  | overflow op => exact ⟨op, rfl⟩
  | missingTask => exact absurd turn hpresent
  | _ => cases hshape

end Reachable

section Termination

variable {p : Profile} {cutoff : LogicalTimeAbsoluteMs} {fsm : MaroonRuntime W H}

theorem Reachable.drains (reachable : Reachable p fsm) (cutoff : LogicalTimeAbsoluteMs) :
    ∃ ended steps, Drains p cutoff fsm ended steps := by
  obtain ⟨inputs, events, run, _, typed⟩ := reachable
  have ranked := tasks_ranked run typed
  clear run
  generalize hload : load fsm = total
  induction total using Nat.strong_induction_on generalizing fsm with
  | _ total ih =>
    subst hload
    rcases hturn : executePendingOperationsIteration p fsm cutoff (.ok ()) with
      panic | ⟨mid, event⟩
    · exact ⟨_, _, .panicked hturn⟩
    · by_cases busy : event = .idle
      · subst busy
        exact ⟨_, _, .idle hturn⟩
      · obtain ⟨hranked, hlt⟩ := load_lt ranked hturn busy
        obtain ⟨ended, steps, hdrains⟩ := ih _ hlt hranked rfl
        exact ⟨ended, event :: steps, .step hturn busy hdrains⟩

end Termination

section Order

def Activation.sleeps (p : Profile) (c : Activation) : Option LogicalTimeDeltaMs :=
  match (do
    let (currentState, entries) ← popState c.stack
    let (vars, _) ← popVars (maroonTaskStateLocalVarsCount currentState) entries
    globalStep p currentState vars c.heap) with
  | .ok (.sleep sleepMs _, _) => some sleepMs
  | _ => none

/-- Without overflow checks: the wake-up time that the due step asks for is not wrapped. With them
the addition panics. -/
def WakeFits (p : Profile) (cutoff : LogicalTimeAbsoluteMs) (fsm : MaroonRuntime W H) : Prop :=
  p.overflowChecks = false → ∀ t pending task sleepMs,
    H.pop fsm.pendingOperations = some (t, pending) → t.scheduledTimestamp ≤ cutoff →
    fsm.activeTasks.lookup t.taskId = some task →
    (⟨t.scheduledTimestamp, task.maroonStack, task.maroonHeap⟩ : Activation).sleeps p =
      some sleepMs → t.scheduledTimestamp + sleepMs < u64Size

def Event.executedAt : Event W → Option LogicalTimeAbsoluteMs
  | .executed _ ts _ _ => some ts
  | _ => none

def executedTimestamps (events : List (Event W)) : List LogicalTimeAbsoluteMs :=
  events.filterMap Event.executedAt

variable {p : Profile} {cutoff : LogicalTimeAbsoluteMs} {fsm mid : MaroonRuntime W H}

theorem stepTask_wakes {c next : Activation} {written : Option String}
    (h : stepTask p c = .ok (.requeued written next)) :
    next.ts = c.ts ∨ ∃ sleepMs, c.sleeps p = some sleepMs ∧
      u64Add p.overflowChecks c.ts sleepMs = some next.ts := by
  simp only [stepTask, except_bind_ok] at h
  obtain ⟨_, _, ⟨currentState, entries⟩, hstate, ⟨vars, entries'⟩, hvars, ⟨stepResult, heap⟩, hstep,
    hfinish⟩ := h
  rcases finishTask_requeued hfinish with hsame | ⟨_, sleepMs, newStates, rfl, hwake⟩
  · exact Or.inl hsame
  · exact Or.inr ⟨sleepMs, by simp [Activation.sleeps, hstate, hvars, hstep], hwake⟩

theorem WakeFits.requeued (fits : WakeFits p cutoff fsm) {t : TimestampedMaroonTask}
    {pending : H.Carrier} {task : MaroonTask W} {written : Option String} {next : Activation}
    (popped : H.pop fsm.pendingOperations = some (t, pending))
    (due : t.scheduledTimestamp ≤ cutoff) (present : fsm.activeTasks.lookup t.taskId = some task)
    (step : stepTask p ⟨t.scheduledTimestamp, task.maroonStack, task.maroonHeap⟩ =
      .ok (.requeued written next)) : t.scheduledTimestamp ≤ next.ts := by
  rcases stepTask_wakes step with hsame | ⟨sleepMs, hsleeps, hwake⟩
  · exact Nat.le_of_eq hsame.symm
  · have hsum : next.ts = t.scheduledTimestamp + sleepMs := by
      cases hchecks : p.overflowChecks with
      | true =>
        rw [hchecks] at hwake
        exact (u64Fit_checked_iff.mp hwake).2
      | false =>
        have hlt := fits hchecks t pending task sleepMs popped due present hsleeps
        rw [u64Add, u64Fit_of_lt hlt] at hwake
        exact (Option.some.inj hwake).symm
    rw [hsum]
    exact Nat.le_add_right _ _

theorem popped_first {t : TimestampedMaroonTask} {pending : H.Carrier}
    (popped : H.pop fsm.pendingOperations = some (t, pending)) {u : TimestampedMaroonTask}
    (queued : u ∈ H.elems fsm.pendingOperations) :
    t.scheduledTimestamp ≤ u.scheduledTimestamp := by
  have hgreatest := (H.pop_some _ _ _ popped).2 u queued
  simpa [TimestampedMaroonTask.cmp, compare_gt_iff_gt] using hgreatest

/-- What a turn executes is an earliest operation, and nothing earlier is queued after it. -/
theorem turn_in_order (fits : WakeFits p cutoff fsm) {event : Event W}
    (turn : executePendingOperationsIteration p fsm cutoff (.ok ()) = .ok (mid, event))
    (busy : event ≠ .idle) :
    ∃ t ∈ H.elems fsm.pendingOperations, event.executedAt = some t.scheduledTimestamp ∧
      t.scheduledTimestamp ≤ cutoff ∧
      ∀ u ∈ H.elems mid.pendingOperations, t.scheduledTimestamp ≤ u.scheduledTimestamp := by
  have htransition := transition_of_step (runtime_step_of_turn turn)
  generalize hevents : [event] = events at htransition
  cases htransition with
  | idle =>
    cases hevents
    exact absurd rfl busy
  | finished _ _ t pending task popped due present step =>
    cases hevents
    have helems := (H.pop_some _ _ _ popped).1
    refine ⟨t, by rw [helems]; exact Multiset.mem_cons_self _ _, rfl, due, fun u hu => ?_⟩
    exact popped_first popped (by rw [helems]; exact Multiset.mem_cons_of_mem hu)
  | requeued _ _ t pending task written next popped due present step =>
    cases hevents
    have helems := (H.pop_some _ _ _ popped).1
    refine ⟨t, by rw [helems]; exact Multiset.mem_cons_self _ _, rfl, due, fun u hu => ?_⟩
    rw [H.elems_push, Multiset.mem_cons] at hu
    rcases hu with rfl | hu
    · exact fits.requeued popped due present step
    · exact popped_first popped (by rw [helems]; exact Multiset.mem_cons_of_mem hu)

/-- No step that a drain at `cutoff` carries out wraps its wake-up time. -/
def WakesFit (p : Profile) (cutoff : LogicalTimeAbsoluteMs) (fsm : MaroonRuntime W H) : Prop :=
  ∀ n mid events, (runtime p W H).run fsm (List.replicate n (.iterate cutoff (.ok ()))) =
    some (mid, events) → WakeFits p cutoff mid

theorem WakesFit.turn (fits : WakesFit p cutoff fsm) {event : Event W}
    (turn : executePendingOperationsIteration p fsm cutoff (.ok ()) = .ok (mid, event)) :
    WakesFit p cutoff mid := by
  intro n mid' events run
  refine fits (n + 1) mid' (event :: events) ?_
  rw [List.replicate_succ]
  exact (Machine.run_cons_iff _).mpr ⟨mid, [event], events, runtime_step_of_turn turn, run, rfl⟩

theorem Drains.in_order {ended : Except Panic (MaroonRuntime W H)} {steps : List (Event W)}
    (h : Drains p cutoff fsm ended steps) (fits : WakesFit p cutoff fsm)
    {earliest : LogicalTimeAbsoluteMs}
    (later : ∀ t ∈ H.elems fsm.pendingOperations, earliest ≤ t.scheduledTimestamp) :
    (executedTimestamps steps).Pairwise (· ≤ ·) ∧
      ∀ ts ∈ executedTimestamps steps, earliest ≤ ts ∧ ts ≤ cutoff := by
  induction h generalizing earliest with
  | idle turn => exact ⟨List.Pairwise.nil, nofun⟩
  | panicked turn => exact ⟨List.Pairwise.nil, nofun⟩
  | @step fsm mid event ended steps turn busy rest ih =>
    obtain ⟨t, hqueued, hat, hdue, hmid⟩ := turn_in_order (fits 0 fsm [] rfl) turn busy
    obtain ⟨hpairwise, hbounds⟩ := ih (fits.turn turn) hmid
    have hsteps : executedTimestamps (event :: steps) =
        t.scheduledTimestamp :: executedTimestamps steps := List.filterMap_cons_some hat
    rw [hsteps]
    refine ⟨List.pairwise_cons.mpr ⟨fun ts hts => (hbounds ts hts).1, hpairwise⟩, ?_⟩
    intro ts hts
    rcases List.mem_cons.mp hts with rfl | hts
    · exact ⟨later t hqueued, hdue⟩
    · obtain ⟨hlow, hhigh⟩ := hbounds ts hts
      exact ⟨(later t hqueued).trans hlow, hhigh⟩

theorem Drains.none_left {fsm' : MaroonRuntime W H} {steps : List (Event W)}
    (h : Drains p cutoff fsm (.ok fsm') steps) :
    ∀ t ∈ H.elems fsm'.pendingOperations, cutoff < t.scheduledTimestamp := by
  generalize hended : (Except.ok fsm' : Except Panic (MaroonRuntime W H)) = ended at h
  induction h with
  | idle turn =>
    cases hended
    obtain ⟨rfl, hnone⟩ := nothing_due turn
    exact hnone
  | panicked turn => cases hended
  | step _ _ _ ih => exact ih hended

theorem Reachable.turn_keeps (reachable : Reachable p fsm) {event : Event W}
    (turn : executePendingOperationsIteration p fsm cutoff (.ok ()) = .ok (mid, event))
    {u : TimestampedMaroonTask} (queued : u ∈ H.elems fsm.pendingOperations)
    (later : cutoff < u.scheduledTimestamp) :
    u ∈ H.elems mid.pendingOperations ∧
      mid.activeTasks.lookup u.taskId = fsm.activeTasks.lookup u.taskId := by
  have hkept : ∀ {t : TimestampedMaroonTask} {pending : H.Carrier},
      H.pop fsm.pendingOperations = some (t, pending) → t.scheduledTimestamp ≤ cutoff →
        u ∈ H.elems pending ∧ u.taskId ≠ t.taskId := by
    intro t pending popped due
    obtain ⟨_, hothers, hmem⟩ := reachable.popped popped
    have hrest := (hmem u queued).resolve_left fun heq => by
      rw [heq] at later
      exact absurd due (Nat.not_le.mpr later)
    exact ⟨hrest, hothers u hrest⟩
  have htransition := transition_of_step (runtime_step_of_turn turn)
  generalize [event] = events at htransition
  cases htransition with
  | idle => exact ⟨queued, rfl⟩
  | finished _ _ t pending task popped due present step =>
    obtain ⟨hrest, hother⟩ := hkept popped due
    exact ⟨hrest, by simp [hother]⟩
  | requeued _ _ t pending task written next popped due present step =>
    obtain ⟨hrest, hother⟩ := hkept popped due
    exact ⟨by rw [H.elems_push]; exact Multiset.mem_cons_of_mem hrest, by simp [hother]⟩

theorem Drains.keeps {fsm' : MaroonRuntime W H} {steps : List (Event W)}
    (h : Drains p cutoff fsm (.ok fsm') steps) (reachable : Reachable p fsm)
    {u : TimestampedMaroonTask} (queued : u ∈ H.elems fsm.pendingOperations)
    (later : cutoff < u.scheduledTimestamp) :
    u ∈ H.elems fsm'.pendingOperations ∧
      fsm'.activeTasks.lookup u.taskId = fsm.activeTasks.lookup u.taskId := by
  generalize hended : (Except.ok fsm' : Except Panic (MaroonRuntime W H)) = ended at h
  induction h with
  | idle turn =>
    cases hended
    exact reachable.turn_keeps turn queued later
  | panicked turn => cases hended
  | step turn _ _ ih =>
    obtain ⟨hqueued, hlookup⟩ := reachable.turn_keeps turn queued later
    obtain ⟨hqueued', hlookup'⟩ := ih (reachable.turn turn) hqueued hended
    exact ⟨hqueued', hlookup'.trans hlookup⟩

theorem Drains.reachable {fsm' : MaroonRuntime W H} {steps : List (Event W)}
    (h : Drains p cutoff fsm (.ok fsm') steps) (reachable : Reachable p fsm) :
    Reachable p fsm' := by
  generalize hended : (Except.ok fsm' : Except Panic (MaroonRuntime W H)) = ended at h
  induction h with
  | idle turn =>
    cases hended
    exact reachable.turn turn
  | panicked turn => cases hended
  | step turn _ _ ih => exact ih (reachable.turn turn) hended

theorem Drains.overflows {panic : Panic} {steps : List (Event W)}
    (h : Drains p cutoff fsm (.error panic) steps) (reachable : Reachable p fsm) :
    ∃ op, panic = .overflow op := by
  generalize hended : (Except.error panic : Except Panic (MaroonRuntime W H)) = ended at h
  induction h with
  | idle turn => cases hended
  | panicked turn =>
    cases hended
    exact reachable.panic turn
  | step turn _ _ ih => exact ih (reachable.turn turn) hended

end Order

/-- From every reachable state the executor loop is left at every timer reading. Draining at `T₁`
and then at `T₂` executes the same steps, so the same writes, as draining at `T₂` alone, and leaves
the same runtime; if an arithmetic overflow panics, then it is the same one after the same steps.
The steps of a drain are in the order of their timestamps and due; afterwards nothing due is left,
and what was not due is untouched. -/
theorem draining_composes {p : Profile} {fsm : MaroonRuntime W H} (reachable : Reachable p fsm)
    {T₁ T₂ : LogicalTimeAbsoluteMs} (h : T₁ ≤ T₂) (fits : WakesFit p T₂ fsm) :
    (∃ ended₁ steps₁, Drained p T₁ fsm ended₁ steps₁) ∧
    (∀ mid steps₁, Drained p T₁ fsm (.ok mid) steps₁ →
      ∃ ended₂ steps₂, Drained p T₂ mid ended₂ steps₂ ∧
        Drained p T₂ fsm ended₂ (steps₁ ++ steps₂)) ∧
    (∀ panic steps₁, Drained p T₁ fsm (.error panic) steps₁ →
      (∃ op, panic = .overflow op) ∧ Drained p T₂ fsm (.error panic) steps₁) ∧
    (∀ ended steps ended' steps', Drained p T₂ fsm ended steps →
      Drained p T₂ fsm ended' steps' → ended = ended' ∧ steps = steps') ∧
    ∀ ended steps, Drained p T₂ fsm ended steps →
      (executedTimestamps steps).Pairwise (· ≤ ·) ∧
      (∀ ts ∈ executedTimestamps steps, ts ≤ T₂) ∧
      ∀ fsm', ended = .ok fsm' →
        (∀ t ∈ H.elems fsm'.pendingOperations, T₂ < t.scheduledTimestamp) ∧
        ∀ t ∈ H.elems fsm.pendingOperations, T₂ < t.scheduledTimestamp →
          t ∈ H.elems fsm'.pendingOperations ∧
          fsm'.activeTasks.lookup t.taskId = fsm.activeTasks.lookup t.taskId := by
  refine ⟨?_, ?_, ?_, ?_, ?_⟩
  · obtain ⟨ended₁, steps₁, hdrains⟩ := reachable.drains T₁
    exact ⟨ended₁, steps₁, hdrains.drained⟩
  · intro mid steps₁ hfirst
    obtain ⟨ended₂, steps₂, hsecond⟩ := (hfirst.drains.reachable reachable).drains T₂
    exact ⟨ended₂, steps₂, hsecond.drained, (hfirst.drains.compose h hsecond).drained⟩
  · intro panic steps₁ hfirst
    exact ⟨hfirst.drains.overflows reachable, (hfirst.drains.panic_later h).drained⟩
  · intro ended steps ended' steps' hdrained hdrained'
    exact hdrained.drains.unique hdrained'.drains
  · intro ended steps hdrained
    obtain ⟨hpairwise, hbounds⟩ := hdrained.drains.in_order fits
      fun t _ => Nat.zero_le t.scheduledTimestamp
    refine ⟨hpairwise, fun ts hts => (hbounds ts hts).2, ?_⟩
    rintro fsm' rfl
    exact ⟨hdrained.drains.none_left, fun t ht hlater => hdrained.drains.keeps reachable ht hlater⟩

def interleavedStart : List (Input String) := interleavedInputs.take 4

theorem interleaved_draining_composes : ∃ fsm events mid steps₁ ended₂ steps₂,
    (runtime ⟨false, true⟩ String .list).run (MaroonRuntime.new String .list) interleavedStart =
      some (fsm, events) ∧
    Drained ⟨false, true⟩ 1 fsm (.ok mid) steps₁ ∧ Drained ⟨false, true⟩ 50 mid ended₂ steps₂ ∧
    Drained ⟨false, true⟩ 50 fsm ended₂ (steps₁ ++ steps₂) := by
  have hrun : (((runtime ⟨false, true⟩ String .list).run (MaroonRuntime.new String .list)
      interleavedStart).bind fun r => (executePendingOperationsInner ⟨false, true⟩ 1 10
        (fun _ => .ok ()) r.1).bind fun drained => drained.1.toOption).isSome := by
    decide +kernel
  obtain ⟨mid, hmid⟩ := Option.isSome_iff_exists.mp hrun
  obtain ⟨⟨fsm, events⟩, run, hdrained⟩ := Option.bind_eq_some_iff.mp hmid
  obtain ⟨⟨ended, steps₁⟩, hinner, hended⟩ := Option.bind_eq_some_iff.mp hdrained
  obtain rfl : ended = .ok mid := except_toOption_eq_some.mp hended
  have reachable : Reachable ⟨false, true⟩ fsm := by
    refine ⟨interleavedStart, events, run, (fun h => by cases h), fun writer l ts hmem => ?_⟩
    simp only [interleavedStart, interleavedInputs, List.take_succ_cons, List.take_zero,
      List.mem_cons, Input.schedule.injEq, reduceCtorEq, List.not_mem_nil, or_false, false_or]
      at hmem
    rcases hmem with ⟨_, rfl, _⟩ | ⟨_, rfl, _⟩
    · exact (by decide : 2 < u64Size)
    · exact (by decide : 5 < u64Size)
  have hfirst := (drains_of_inner hinner).drained
  obtain ⟨_, hcompose, _, _, _⟩ := draining_composes reachable (by decide : 1 ≤ 50)
    fun _ _ _ _ h => by cases h
  obtain ⟨ended₂, steps₂, hsecond, hwhole⟩ := hcompose mid steps₁ hfirst
  exact ⟨fsm, events, mid, steps₁, ended₂, steps₂, run, hfirst, hsecond, hwhole⟩

end RustExperiments.Maroon
