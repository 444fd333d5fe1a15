/- module: RustExperiments/AsyncRedb/Disconnect
   digest: What becomes of the calls when a handler panics and takes the worker with it. -/

import RustExperiments.AsyncRedb.Linearizable

set_option autoImplicit false
set_option relaxedAutoImplicit false

namespace RustExperiments.AsyncRedb.Handlers

open RustExperiments.Lib RustExperiments.TradeFeed

variable (h : Handlers)

structure Shared where
  state : h.State
  panicked : Bool

inductive Notice where
  | event (e : h.Event)
  | panicked (i : ℕ) (r : h.Request) (e : h.Env)
  /-- `send` fails as the queue is closed -/
  | refused (i : ℕ) (r : h.Request)
  /-- the sender of the one-shot channel is gone, and no value is in it -/
  | unanswered (i : ℕ) (r : h.Request)

variable {h}

def State.without (s : h.State) (i : ℕ) : h.State :=
  { s with calls := s.calls.erase i, responses := s.responses.erase i }

/-- No worker is left: the requests in the queue go with it, and the senders of their replies. -/
def State.abandon (s : h.State) (db : h.Db) : h.State :=
  { s with db := db, queue := [], worker := .receiving }

variable (h) (left : (r : h.Request) → h.Env → h.Db → h.Db)

/-- The steps that `machine` does not have; `left` is what a handler that panics leaves behind. -/
def panickingStep : h.Shared → h.Input → Option (h.Shared × List h.Notice)
  | ⟨s, false⟩, .handle e =>
    match s.worker with
    | .handling i r => some (⟨s.abandon (left r e s.db), true⟩, [.panicked i r e])
    | _ => none
  | ⟨s, true⟩, .finish i =>
    match s.calls.lookup i with
    | some (.waiting r) => some (⟨s.without i, true⟩, [.unanswered i r])
    | _ => none
  | _, _ => none

/-- All clones of an `AsyncRedb` whose handlers may panic. -/
def panicking (queueSize : ℕ) : Machine h.Shared h.Input h.Notice where
  step
    | ⟨s, true⟩, .send i =>
      match s.calls.lookup i with
      | some (.sending r) => some (⟨s.without i, true⟩, [.refused i r])
      | _ => none
    | c, input =>
      match (h.machine queueSize).step c.state input with
      | some (t, o) => some (⟨t, c.panicked⟩, o.map .event)
      | none => h.panickingStep left c input

variable {h left}

section Steps

variable {queueSize i : ℕ} {s : h.State} {call : h.Call} {r : h.Request}
  {result : Except String h.Any}

theorem machine_cancel (live : s.calls.lookup i = some call) :
    (h.machine queueSize).step s (.cancel i) = some (s.without i, [.cancelled i]) := by
  simp only [machine, live]
  rfl

theorem machine_finish (waiting : s.calls.lookup i = some (.waiting r))
    (response : s.responses.lookup i = some result) :
    (h.machine queueSize).step s (.finish i) =
      some (s.without i, [.returned i r (h.unbox r result)]) := by
  simp only [machine, waiting, response]
  rfl

inductive SharedStep (left : (r : h.Request) → h.Env → h.Db → h.Db) (queueSize : ℕ) :
    h.Shared → h.Input → h.Shared → List h.Notice → Prop where
  | event {s t : h.State} {input : h.Input} {o : List h.Event} {panicked : Bool}
      (step : (h.machine queueSize).step s input = some (t, o))
      (unsent : panicked = true → ∀ i, input ≠ .send i) :
    SharedStep left queueSize ⟨s, panicked⟩ input ⟨t, panicked⟩ (o.map .event)
  | panicked {s : h.State} {i : ℕ} {r : h.Request} {e : h.Env} (taken : s.worker = .handling i r)
      (panics : h.handle r e s.db = none) :
    SharedStep left queueSize ⟨s, false⟩ (.handle e)
      ⟨s.abandon (left r e s.db), true⟩ [.panicked i r e]
  | refused {s : h.State} {i : ℕ} {r : h.Request}
      (sending : s.calls.lookup i = some (.sending r)) :
    SharedStep left queueSize ⟨s, true⟩ (.send i)
      ⟨s.without i, true⟩ [.refused i r]
  | unanswered {s : h.State} {i : ℕ} {r : h.Request}
      (waiting : s.calls.lookup i = some (.waiting r)) (silent : s.responses.lookup i = none) :
    SharedStep left queueSize ⟨s, true⟩ (.finish i)
      ⟨s.without i, true⟩
      [.unanswered i r]

theorem shared_step_cases {c d : h.Shared} {input : h.Input} {o : List h.Notice}
    (step : (h.panicking left queueSize).step c input = some (d, o)) :
    SharedStep left queueSize c input d o := by
  obtain ⟨s, panicked⟩ := c
  -- Every step but a refusal is one of `machine`, or one that `machine` lacks.
  have hrest : (panicked = true → ∀ i, input ≠ .send i) →
      (match (h.machine queueSize).step s input with
        | some (t, o) => some (⟨t, panicked⟩, o.map .event)
        | none => h.panickingStep left ⟨s, panicked⟩ input) = some (d, o) →
      SharedStep left queueSize ⟨s, panicked⟩ input d o := by
    intro unsent hstep
    cases hmachine : (h.machine queueSize).step s input with
    | some p =>
      rw [hmachine] at hstep
      cases hstep
      exact .event hmachine unsent
    | none =>
      rw [hmachine] at hstep
      cases input with
      | handle e =>
        cases panicked with
        | true => cases hstep
        | false =>
          simp only [panickingStep] at hstep
          split at hstep
          · rename_i i r hworker
            cases hstep
            refine .panicked hworker ?_
            cases hhandle : h.handle r e s.db with
            | none => rfl
            | some p => simp [machine, hworker, handleGenericRequest, hhandle] at hmachine
          · cases hstep
      | finish i =>
        cases panicked with
        | false => cases hstep
        | true =>
          simp only [panickingStep] at hstep
          split at hstep
          · rename_i r hcall
            cases hstep
            refine .unanswered hcall ?_
            cases hresponse : s.responses.lookup i with
            | none => rfl
            | some result => simp [machine, hcall, hresponse] at hmachine
          · cases hstep
      | _ => cases panicked <;> cases hstep
  cases panicked with
  | false =>
    cases input <;> exact hrest (fun hfalse => by cases hfalse) step
  | true =>
    cases input with
    | send i =>
      simp only [panicking] at step
      split at step
      · rename_i r hcall
        cases step
        exact .refused hcall
      · cases step
    | _ => exact hrest (fun _ i => by simp) step

end Steps

section Refinement

variable {queueSize : ℕ} {db : h.Db}

def Notice.calm : h.Notice → Option h.Event
  | .event e => some e
  | .panicked _ _ _ => none
  | .refused i _ => some (.cancelled i)
  | .unanswered i _ => some (.cancelled i)

def calm (out : List h.Notice) : List h.Event := out.filterMap Notice.calm

theorem calm_events (o : List h.Event) : calm (o.map Notice.event) = o := by
  rw [calm, List.filterMap_map]
  exact List.filterMap_some

def Stands (left : (r : h.Request) → h.Env → h.Db → h.Db) (out : List h.Notice) (c : h.Shared)
    (s : h.State) : Prop :=
  (c = ⟨s, false⟩ ∧ ∀ i r e, .panicked i r e ∉ out) ∨
    ∃ i r e, .panicked i r e ∈ out ∧ s.worker = .handling i r ∧ h.handle r e s.db = none ∧
      c = ⟨s.abandon (left r e s.db), true⟩

theorem step_of_ended {s t : h.State} {i : ℕ} {r : h.Request} {db' : h.Db} {input : h.Input}
    {o : List h.Event} (taken : s.worker = .handling i r)
    (step : (h.machine queueSize).step (s.abandon db') input =
      some (t, o)) (unsent : ∀ j, input ≠ .send j) :
    ∃ t', (h.machine queueSize).step s input = some (t', o) ∧ t'.worker = .handling i r ∧
      t'.db = s.db ∧ t = t'.abandon db' := by
  cases input with
  | call r' =>
    cases step
    exact ⟨_, rfl, taken, rfl, rfl⟩
  | send j => exact absurd rfl (unsent j)
  | receive => cases step
  | handle e => cases step
  | reply => cases step
  | finish j =>
    cases step_cases step with
    | finish waiting response =>
      exact ⟨s.without j, machine_finish waiting response, taken, rfl, rfl⟩
  | cancel j =>
    cases step_cases step with
    | cancel live => exact ⟨s.without j, machine_cancel live, taken, rfl, rfl⟩

theorem Stands.step {c d : h.Shared} {input : h.Input} {out o : List h.Notice} {s : h.State}
    (stands : Stands left out c s)
    (step : (h.panicking left queueSize).step c input = some (d, o)) :
    ∃ inputs s', (h.machine queueSize).run s inputs = some (s', calm o) ∧
      Stands left (out ++ o) d s' := by
  have hcancel : ∀ {i : ℕ} {call : h.Call}, s.calls.lookup i = some call →
      (h.machine queueSize).run s [.cancel i] = some
        (s.without i, [.cancelled i]) := by
    intro i call hcall
    rw [Machine.run_singleton]
    exact machine_cancel hcall
  rcases stands with ⟨rfl, hquiet⟩ | ⟨i, r, e, hnotice, hworker, hpanics, rfl⟩
  · cases shared_step_cases step with
    | event hstep _ =>
      refine ⟨[input], _, ?_, Or.inl ⟨rfl, ?_⟩⟩
      · rw [calm_events, Machine.run_singleton]
        exact hstep
      · intro i r e hmem
        rcases List.mem_append.mp hmem with hold | hnew
        · exact hquiet i r e hold
        · simp at hnew
    | panicked taken panics =>
      exact ⟨[], s, rfl, Or.inr ⟨_, _, _, by simp, taken, panics, rfl⟩⟩
  · have hstill : .panicked i r e ∈ out ++ o := List.mem_append_left _ hnotice
    cases shared_step_cases step with
    | event hstep unsent =>
      obtain ⟨t', hstep', hworker', hdb, rfl⟩ := step_of_ended hworker hstep (unsent rfl)
      refine ⟨[input], t', ?_, Or.inr ⟨i, r, e, hstill, hworker', ?_, ?_⟩⟩
      · rw [calm_events, Machine.run_singleton]
        exact hstep'
      · rwa [hdb]
      · rw [hdb]
    | refused sending =>
      exact ⟨_, _, hcancel sending, Or.inr ⟨i, r, e, hstill, hworker, hpanics, rfl⟩⟩
    | unanswered waiting silent =>
      exact ⟨_, _, hcancel waiting, Or.inr ⟨i, r, e, hstill, hworker, hpanics, rfl⟩⟩

end Refinement

section Ended

variable {queueSize : ℕ} {db : h.Db} {es : List h.Event} {s : h.State} {c d : h.Shared}
  {out o : List h.Notice}

structure Ended (c : h.Shared) : Prop where
  panicked : c.panicked = true
  worker : c.state.worker = .receiving
  queue : c.state.queue = []

def Notice.Late : h.Notice → Prop
  | .event e => e.execution = none ∧ e.message = none
  | .panicked _ _ _ => False
  | .refused _ _ => True
  | .unanswered _ _ => True

theorem late_event {e : h.Event} (unexecuted : e.execution = none) (unsent : e.message = none) :
    ∀ n ∈ [e].map Notice.event, n.Late := by
  intro n hn
  obtain rfl : n = .event e := by simpa using hn
  exact ⟨unexecuted, unsent⟩

theorem Ended.step {input : h.Input} (ended : Ended c)
    (step : (h.panicking left queueSize).step c input = some (d, o)) :
    Ended d ∧ d.state.db = c.state.db ∧ ∀ n ∈ o, n.Late := by
  obtain ⟨hpanicked, hworker, hqueue⟩ := ended
  cases shared_step_cases step with
  | event hstep unsent =>
    simp only at hpanicked hworker hqueue
    cases step_cases hstep with
    | call r => exact ⟨⟨hpanicked, hworker, hqueue⟩, rfl, late_event rfl rfl⟩
    | send _ _ => exact absurd rfl (unsent hpanicked _)
    | receive _ head =>
      rw [hqueue] at head
      cases head
    | handle taken _ =>
      rw [hworker] at taken
      cases taken
    | reply executed =>
      rw [hworker] at executed
      cases executed
    | finish _ _ => exact ⟨⟨hpanicked, hworker, hqueue⟩, rfl, late_event rfl rfl⟩
    | cancel _ => exact ⟨⟨hpanicked, hworker, hqueue⟩, rfl, late_event rfl rfl⟩
  | panicked _ _ => cases hpanicked
  | refused _ => exact ⟨⟨rfl, hworker, hqueue⟩, rfl, by simp [Notice.Late]⟩
  | unanswered _ _ => exact ⟨⟨rfl, hworker, hqueue⟩, rfl, by simp [Notice.Late]⟩

theorem Ended.run {inputs : List h.Input} (ended : Ended c)
    (run : (h.panicking left queueSize).run c inputs = some (d, out)) :
    Ended d ∧ d.state.db = c.state.db ∧ ∀ n ∈ out, n.Late := by
  refine Machine.run_invariant _
    (fun _ out d => Ended d ∧ d.state.db = c.state.db ∧ ∀ n ∈ out, n.Late)
    ⟨ended, rfl, by simp⟩ ?_ run
  rintro is out d input d' o _ ⟨hended, hdb, hlate⟩ hstep
  obtain ⟨hended', hdb', hlate'⟩ := hended.step hstep
  exact ⟨hended', hdb'.trans hdb, fun n hn => (List.mem_append.mp hn).elim (hlate n) (hlate' n)⟩

theorem Linear.unexecuted (l : Linear db es s) {i j : ℕ} {r r' : h.Request}
    (taken : s.worker = .handling j r') (waiting : s.calls.lookup i = some (.waiting r))
    (silent : s.responses.lookup i = none) : i ∉ (executions es).map Execution.call := by
  intro hexecuted
  have hqueued : i ∈ (s.worker.taken ++ s.queue).map Prod.fst := by
    rw [List.map_append, List.mem_append]
    rcases l.pending i r waiting with hresponse | hcurrent | hqueue
    · rw [silent] at hresponse
      cases hresponse
    · rw [taken] at hcurrent ⊢
      cases hcurrent
      exact Or.inl (by simp [Worker.taken])
    · exact Or.inr hqueue
  have hnodup := l.nodup
  rw [l.fifo, List.append_assoc, List.map_append, List.map_map] at hnodup
  exact (List.nodup_append.mp hnodup).2.2 i hexecuted i hqueued rfl

def Notice.failed : h.Notice → Option ℕ
  | .refused i _ => some i
  | .unanswered i _ => some i
  | _ => none

end Ended

section Panic

variable {queueSize : ℕ} {db : h.Db} {c : h.Shared} {out : List h.Notice}

/-- What a request of the feed leaves of the database when it panics. -/
def feedLeft (serde : SerdeJson) (checks : Bool) :
    (feedHandlers serde checks).Request → (feedHandlers serde checks).Env →
      (feedHandlers serde checks).Db → (feedHandlers serde checks).Db :=
  fun q faults db => (DbRequest.handle serde checks q db faults).2.1

end Panic

end RustExperiments.AsyncRedb.Handlers
