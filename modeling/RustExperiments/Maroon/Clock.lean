/- module: RustExperiments/Maroon/Clock
   digest: Handlers read the timer before they take the mutex; when logical time can go back. -/

import RustExperiments.Maroon.Drain

set_option autoImplicit false
set_option relaxedAutoImplicit false

namespace RustExperiments.Maroon

open RustExperiments.Lib

/-- The runtime, its timer, and the handlers that have read the timer for their launch timestamps
and wait for the mutex. -/
structure Program (W : Type) (H : PendingHeap) where
  fsm : MaroonRuntime W H
  millisSinceStart : LogicalTimeAbsoluteMs
  handlers : Table ℕ (W × Launch × LogicalTimeAbsoluteMs)
  next : ℕ

inductive Moment (W : Type) where
  /-- time passes -/
  | tick (ms : LogicalTimeDeltaMs)
  /-- a handler reads the timer -/
  | launch (writer : W) (l : Launch)
  /-- a handler takes the mutex in `schedule` -/
  | lock (handler : ℕ)
  /-- the executor takes the mutex, reads the timer and executes what is due first -/
  | iterate (writeResult : Except String Unit)

variable {W : Type} {H : PendingHeap}

def Program.new (W : Type) (H : PendingHeap) : Program W H := ⟨.new W H, 0, ∅, 0⟩

def programStep (p : Profile) (s : Program W H) :
    Moment W → Option (Program W H × List (Event W))
  | .tick ms => some ({ s with millisSinceStart := s.millisSinceStart + ms }, [])
  | .launch writer l =>
    some ({ s with
      handlers := s.handlers.insert s.next (writer, l, s.millisSinceStart)
      next := s.next + 1 }, [])
  | .lock handler =>
    (s.handlers.lookup handler).bind fun (writer, l, ts) =>
      (runtimeStep p s.fsm (.schedule writer l ts)).toOption.map fun r =>
        ({ s with fsm := r.1, handlers := s.handlers.erase handler }, [r.2])
  | .iterate writeResult =>
    (runtimeStep p s.fsm (.iterate s.millisSinceStart writeResult)).toOption.map fun r =>
      ({ s with fsm := r.1 }, [r.2])

/-- All interleavings of any number of handlers with the executor, under a timer that does not go
back. -/
def program (p : Profile) (W : Type) (H : PendingHeap) :
    Machine (Program W H) (Moment W) (Event W) where
  step := programStep p

variable {p : Profile}

theorem programStep_cases {s s' : Program W H} {moment : Moment W} {events : List (Event W)}
    (h : (program p W H).step s moment = some (s', events)) :
    (events = [] ∧ s'.fsm = s.fsm) ∨
      (∃ writer l ts, Transition p s.fsm (.schedule writer l ts) s'.fsm events) ∨
      ∃ writeResult, moment = .iterate writeResult ∧
        Transition p s.fsm (.iterate s.millisSinceStart writeResult) s'.fsm events := by
  have hruntime : ∀ {input r}, (runtimeStep p s.fsm input).toOption = some r →
      Transition p s.fsm input r.1 [r.2] := fun hstep =>
    transition_of_step (Option.map_eq_some_iff.mpr ⟨_, hstep, rfl⟩)
  cases moment with
  | tick ms =>
    cases h
    exact Or.inl ⟨rfl, rfl⟩
  | launch writer l =>
    cases h
    exact Or.inl ⟨rfl, rfl⟩
  | lock handler =>
    obtain ⟨⟨writer, l, ts⟩, _, hmap⟩ := Option.bind_eq_some_iff.mp h
    obtain ⟨r, hstep, heq⟩ := Option.map_eq_some_iff.mp hmap
    cases heq
    exact Or.inr (Or.inl ⟨writer, l, ts, hruntime hstep⟩)
  | iterate writeResult =>
    obtain ⟨r, hstep, heq⟩ := Option.map_eq_some_iff.mp h
    cases heq
    exact Or.inr (Or.inr ⟨writeResult, rfl, hruntime hstep⟩)

/-- No executor turn of the run wraps a wake-up time. -/
def NoWrap (p : Profile) (moments : List (Moment W)) (H : PendingHeap) : Prop :=
  ∀ before writeResult after s events, moments = before ++ .iterate writeResult :: after →
    (program p W H).run (Program.new W H) before = some (s, events) →
    WakeFits p s.millisSinceStart s.fsm

theorem NoWrap.of_append {before after : List (Moment W)} (h : NoWrap p (before ++ after) H) :
    NoWrap p before H := by
  intro first writeResult rest s events hsplit run
  refine h first writeResult (rest ++ after) s events ?_ run
  rw [hsplit, List.append_assoc, List.cons_append]

section Splits

variable {α : Type}

theorem concat_split {xs before after : List α} {x e : α}
    (h : xs ++ [x] = before ++ e :: after) :
    (after = [] ∧ before = xs ∧ e = x) ∨
      ∃ after', after = after' ++ [x] ∧ xs = before ++ e :: after' := by
  rcases List.eq_nil_or_concat after with rfl | ⟨after', y, rfl⟩
  · obtain ⟨hleft, hright⟩ := List.append_inj' h rfl
    exact Or.inl ⟨rfl, hleft.symm, (List.cons.inj hright).1.symm⟩
  · rw [List.concat_eq_append, ← List.cons_append, ← List.append_assoc] at h
    obtain ⟨hleft, hright⟩ := List.append_inj' h rfl
    obtain rfl := (List.cons.inj hright).1
    exact Or.inr ⟨after', List.concat_eq_append, hleft⟩

theorem pairwise_of_splits {R : α → α → Prop} {xs : List α}
    (h : ∀ before e between f after, xs = before ++ e :: between ++ f :: after → R e f) :
    xs.Pairwise R := by
  induction xs with
  | nil => exact List.Pairwise.nil
  | cons x xs ih =>
    refine List.pairwise_cons.mpr ⟨fun f hf => ?_, ih fun before e between f after hsplit => ?_⟩
    · obtain ⟨between, after, rfl⟩ := List.append_of_mem hf
      exact h [] x between f after rfl
    · exact h (x :: before) e between f after (by rw [hsplit]; rfl)

end Splits

def LaunchedBy (ts : LogicalTimeAbsoluteMs) (events : List (Event W)) : Prop :=
  ∃ taskId writer l launchTs, .scheduled taskId writer l launchTs ∈ events ∧ launchTs ≤ ts

theorem LaunchedBy.mono {ts ts' : LogicalTimeAbsoluteMs} {events : List (Event W)}
    (h : LaunchedBy ts events) (hle : ts ≤ ts') (more : List (Event W)) :
    LaunchedBy ts' (events ++ more) := by
  obtain ⟨taskId, writer, l, launchTs, hmem, hlaunch⟩ := h
  exact ⟨taskId, writer, l, launchTs, List.mem_append_left _ hmem, hlaunch.trans hle⟩

/-- Steps and waiting operations are in order, except behind launches. -/
structure InOrder (events : List (Event W)) (fsm : MaroonRuntime W H) : Prop where
  steps : ∀ before e between f after τ σ, events = before ++ e :: between ++ f :: after →
    e.executedAt = some τ → f.executedAt = some σ → τ ≤ σ ∨ LaunchedBy σ between
  waiting : ∀ before e after τ, events = before ++ e :: after → e.executedAt = some τ →
    ∀ t ∈ H.elems fsm.pendingOperations,
      τ ≤ t.scheduledTimestamp ∨ LaunchedBy t.scheduledTimestamp after

namespace InOrder

variable {events : List (Event W)} {fsm : MaroonRuntime W H}

theorem initial : InOrder ([] : List (Event W)) (MaroonRuntime.new W H) where
  steps before e between f after τ σ h := by simp at h
  waiting before e after τ h := by simp at h

theorem steps_quiet (h : InOrder events fsm) {x : Event W} (quiet : x.executedAt = none) :
    ∀ before e between f after τ σ, events ++ [x] = before ++ e :: between ++ f :: after →
      e.executedAt = some τ → f.executedAt = some σ → τ ≤ σ ∨ LaunchedBy σ between := by
  intro before e between f after τ σ hsplit he hf
  rcases concat_split hsplit with ⟨_, _, rfl⟩ | ⟨after', _, hevents⟩
  · rw [quiet] at hf
    cases hf
  · exact h.steps before e between f after' τ σ hevents he hf

theorem after_launch (h : InOrder events fsm) (taskId : MaroonTaskId) (writer : W) (l : Launch)
    (ts : LogicalTimeAbsoluteMs) {fsm' : MaroonRuntime W H}
    (pending : ∀ t ∈ H.elems fsm'.pendingOperations,
      t.scheduledTimestamp = ts ∨ t ∈ H.elems fsm.pendingOperations) :
    InOrder (events ++ [.scheduled taskId writer l ts]) fsm' where
  steps := h.steps_quiet rfl
  waiting before e after τ hsplit he t ht := by
    rcases concat_split hsplit with ⟨_, _, rfl⟩ | ⟨after', rfl, hevents⟩
    · cases he
    rcases pending t ht with hts | hold
    · exact Or.inr ⟨taskId, writer, l, ts, by simp, Nat.le_of_eq hts.symm⟩
    · rcases h.waiting before e after' τ hevents he t hold with hle | hlaunched
      · exact Or.inl hle
      · exact Or.inr (hlaunched.mono (Nat.le_refl _) _)

theorem after_idle (h : InOrder events fsm) : InOrder (events ++ [.idle]) fsm where
  steps := h.steps_quiet rfl
  waiting before e after τ hsplit he t ht := by
    rcases concat_split hsplit with ⟨_, _, rfl⟩ | ⟨after', rfl, hevents⟩
    · cases he
    rcases h.waiting before e after' τ hevents he t ht with hle | hlaunched
    · exact Or.inl hle
    · exact Or.inr (hlaunched.mono (Nat.le_refl _) _)

theorem after_step (h : InOrder events fsm) {first : TimestampedMaroonTask}
    (queued : first ∈ H.elems fsm.pendingOperations) {taskId : MaroonTaskId}
    (written : Option (W × String)) (done : Bool) {fsm' : MaroonRuntime W H}
    (pending : ∀ t ∈ H.elems fsm'.pendingOperations,
      first.scheduledTimestamp ≤ t.scheduledTimestamp) :
    InOrder (events ++ [.executed taskId first.scheduledTimestamp written done]) fsm' where
  steps before e between f after τ σ hsplit he hf := by
    rcases concat_split hsplit with ⟨_, hbefore, rfl⟩ | ⟨after', _, hevents⟩
    · cases hf
      exact h.waiting before e between τ hbefore.symm he first queued
    · exact h.steps before e between f after' τ σ hevents he hf
  waiting before e after τ hsplit he t ht := by
    rcases concat_split hsplit with ⟨_, _, rfl⟩ | ⟨after', rfl, hevents⟩
    · cases he
      exact Or.inl (pending t ht)
    · rcases h.waiting before e after' τ hevents he first queued with hle | hlaunched
      · exact Or.inl (hle.trans (pending t ht))
      · exact Or.inr (hlaunched.mono (pending t ht) _)

/-- Whatever the runtime does keeps the order, where no wake-up time is wrapped. -/
theorem transition (h : InOrder events fsm) {input : Input W} {fsm' : MaroonRuntime W H}
    {o : List (Event W)} (step : Transition p fsm input fsm' o)
    (fits : ∀ cutoff writeResult, input = .iterate cutoff writeResult → WakeFits p cutoff fsm) :
    InOrder (events ++ o) fsm' := by
  cases step with
  | scheduled writer l ts next advanced =>
    refine h.after_launch _ writer l ts fun t ht => ?_
    rw [H.elems_push, Multiset.mem_cons] at ht
    exact ht.imp (fun heq => by rw [heq]) id
  | idle => exact h.after_idle
  | finished cutoff writeResult t pending task popped due present step =>
    have helems := (H.pop_some _ _ _ popped).1
    refine h.after_step (by rw [helems]; exact Multiset.mem_cons_self _ _) none true fun u hu => ?_
    exact popped_first popped (by rw [helems]; exact Multiset.mem_cons_of_mem hu)
  | requeued cutoff writeResult t pending task written next popped due present step =>
    have helems := (H.pop_some _ _ _ popped).1
    refine h.after_step (by rw [helems]; exact Multiset.mem_cons_self _ _) _ false fun u hu => ?_
    rw [H.elems_push, Multiset.mem_cons] at hu
    rcases hu with rfl | hu
    · exact (fits cutoff writeResult rfl).requeued popped due present step
    · exact popped_first popped (by rw [helems]; exact Multiset.mem_cons_of_mem hu)

end InOrder

theorem in_order_of_run {moments : List (Moment W)} {s : Program W H} {events : List (Event W)}
    (run : (program p W H).run (Program.new W H) moments = some (s, events))
    (noWrap : NoWrap p moments H) : InOrder events s.fsm := by
  refine Machine.run_invariant (program p W H)
    (fun moments events s => NoWrap p moments H → InOrder events s.fsm) (fun _ => .initial) ?_ run
    noWrap
  intro moments events s moment s' o hrun inv hstep noWrap
  have h := inv noWrap.of_append
  rcases programStep_cases hstep with ⟨rfl, hfsm⟩ | ⟨writer, l, ts, htransition⟩ |
    ⟨writeResult, rfl, htransition⟩
  · rw [hfsm, List.append_nil]
    exact h
  · exact h.transition htransition fun cutoff writeResult heq => by cases heq
  · refine h.transition htransition fun cutoff writeResult' heq => ?_
    cases heq
    exact noWrap moments writeResult [] s events rfl hrun

/-- A step is carried out behind a later one only if between them a handler took the mutex whose
launch timestamp is no later than that of the step. So the timestamps of the steps are
nondecreasing in every run in which each handler, when it takes the mutex, has a launch timestamp
that no step already carried out has passed. -/
theorem time_goes_back_behind_launches {moments : List (Moment W)} {s : Program W H}
    {events : List (Event W)}
    (run : (program p W H).run (Program.new W H) moments = some (s, events))
    (noWrap : NoWrap p moments H) :
    (∀ before e between f after τ σ, events = before ++ e :: between ++ f :: after →
      e.executedAt = some τ → f.executedAt = some σ → σ < τ →
      ∃ taskId writer l ts, .scheduled taskId writer l ts ∈ between ∧ ts ≤ σ) ∧
    ((∀ before taskId writer l ts after, events = before ++ .scheduled taskId writer l ts :: after →
      ∀ τ ∈ executedTimestamps before, τ ≤ ts) →
      (executedTimestamps events).Pairwise (· ≤ ·)) := by
  have hsteps := (in_order_of_run run noWrap).steps
  refine ⟨fun before e between f after τ σ hsplit he hf hlt => ?_, fun inTime => ?_⟩
  · exact (hsteps before e between f after τ σ hsplit he hf).resolve_left (Nat.not_le.mpr hlt)
  · refine List.pairwise_filterMap.mpr (pairwise_of_splits ?_)
    intro before e between f after hsplit τ he σ hf
    rcases hsteps before e between f after τ σ hsplit he hf with hle |
      ⟨taskId, writer, l, ts, hmem, hts⟩
    · exact hle
    · obtain ⟨between₁, between₂, rfl⟩ := List.append_of_mem hmem
      refine (inTime (before ++ e :: between₁) taskId writer l ts (between₂ ++ f :: after)
        (by rw [hsplit]; simp) τ ?_).trans hts
      exact List.mem_filterMap.mpr ⟨e, by simp, he⟩

/-- The second handler is faster: it reads the timer later and has its first step carried out
before the first handler takes the mutex. -/
def overtakenMoments : List (Moment String) :=
  [.launch "first" (.delay 5 "a"), .tick 3, .launch "second" (.delay 5 "b"), .lock 1,
    .iterate (.ok ()), .lock 0, .iterate (.ok ())]

theorem overtaken_time_goes_back : ∃ s events,
    (program ⟨false, true⟩ String .list).run (Program.new String .list) overtakenMoments =
      some (s, events) ∧
    NoWrap ⟨false, true⟩ overtakenMoments .list ∧
    executedTimestamps events = [3, 0] ∧ ¬ (executedTimestamps events).Pairwise (· ≤ ·) := by
  have hrun : ((program ⟨false, true⟩ String .list).run (Program.new String .list)
      overtakenMoments).map (fun r => executedTimestamps r.2) = some [3, 0] := by
    decide +kernel
  obtain ⟨⟨s, events⟩, run, hevents⟩ := Option.map_eq_some_iff.mp hrun
  refine ⟨s, events, run, (fun _ _ _ _ _ _ _ h => by cases h), hevents, ?_⟩
  rw [show executedTimestamps events = [3, 0] from hevents]
  decide

def inTimeMoments : List (Moment String) :=
  [.launch "first" (.delay 5 "a"), .tick 3, .launch "second" (.delay 5 "b"), .lock 1, .lock 0,
    .iterate (.ok ()), .iterate (.ok ())]

theorem in_time_in_order : ∃ s events,
    (program ⟨false, true⟩ String .list).run (Program.new String .list) inTimeMoments =
      some (s, events) ∧
    executedTimestamps events = [0, 3] ∧ (executedTimestamps events).Pairwise (· ≤ ·) := by
  have hrun : ((program ⟨false, true⟩ String .list).run (Program.new String .list)
      inTimeMoments).map (fun r => r.2) = some [.scheduled 1 "second" (.delay 5 "b") 3,
        .scheduled 2 "first" (.delay 5 "a") 0, .executed 2 0 none false,
        .executed 1 3 none false] := by
    decide +kernel
  obtain ⟨⟨s, events⟩, run, rfl⟩ := Option.map_eq_some_iff.mp hrun
  refine ⟨s, _, run, rfl, (time_goes_back_behind_launches run ?_).2 ?_⟩
  · exact fun _ _ _ _ _ _ _ h => by cases h
  · intro before taskId writer l ts after hsplit τ hτ
    rcases before with _ | ⟨e₁, _ | ⟨e₂, before⟩⟩
    · cases hτ
    · simp only [List.cons_append, List.nil_append, List.cons.injEq] at hsplit
      obtain ⟨rfl, _⟩ := hsplit
      cases hτ
    · exfalso
      simp only [List.cons_append, List.cons.injEq] at hsplit
      have hmem : Event.scheduled taskId writer l ts ∈
          [(.executed 2 0 none false : Event String), .executed 1 3 none false] := by
        rw [hsplit.2.2]
        simp
      simp at hmem

end RustExperiments.Maroon
