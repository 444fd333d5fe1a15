/- module: RustExperiments/AsyncRedb/Linearizable
   digest: The worker executes every request that entered the queue once, in one order for all. -/

import RustExperiments.AsyncRedb.Feed
import RustExperiments.TradeFeed.Json

set_option autoImplicit false
set_option relaxedAutoImplicit false

namespace RustExperiments.AsyncRedb.Handlers

open RustExperiments.Lib RustExperiments.TradeFeed

variable {h : Handlers}

section Ends

variable {queueSize i : ℕ} {db : h.Db} {es o : List h.Event} {s t : h.State}

def Gone (s : h.State) (i : ℕ) : Prop := i < s.next ∧ s.calls.lookup i = none

def Event.caller : h.Event → Option ℕ
  | .called i _ => some i
  | .sent i _ => some i
  | .executed _ _ _ => none
  | .returned i _ _ => some i
  | .cancelled i => some i

def Event.ended : h.Event → Option ℕ
  | .returned i _ _ => some i
  | .cancelled i => some i
  | _ => none

theorem Gone.step (gone : Gone s i) {input : h.Input}
    (step : (h.machine queueSize).step s input = some (t, o)) :
    Gone t i ∧ ∀ e ∈ o, e.caller ≠ some i := by
  obtain ⟨hlt, hnone⟩ := gone
  have hother : ∀ {j c}, s.calls.lookup j = some c → i ≠ j := by
    rintro j c hc rfl
    rw [hnone] at hc
    cases hc
  cases step_cases step with
  | call r =>
    have hne : i ≠ s.next := Nat.ne_of_lt hlt
    exact ⟨⟨hlt.trans (Nat.lt_succ_self _), by simp [hne, hnone]⟩,
      by simpa [Event.caller] using hne.symm⟩
  | send sending _ =>
    have hne := hother sending
    exact ⟨⟨hlt, by simp [hne, hnone]⟩, by simpa [Event.caller] using hne.symm⟩
  | receive _ _ => exact ⟨⟨hlt, hnone⟩, by simp⟩
  | handle _ _ => exact ⟨⟨hlt, hnone⟩, by simp [Event.caller]⟩
  | reply _ => exact ⟨⟨hlt, hnone⟩, by simp⟩
  | finish waiting _ =>
    have hne := hother waiting
    exact ⟨⟨hlt, by simp [hne, hnone]⟩, by simpa [Event.caller] using hne.symm⟩
  | cancel live =>
    have hne := hother live
    exact ⟨⟨hlt, by simp [hne, hnone]⟩, by simpa [Event.caller] using hne.symm⟩

theorem Gone.run (gone : Gone s i) {inputs : List h.Input} {es' : List h.Event}
    (run : (h.machine queueSize).run s inputs = some (t, es')) :
    Gone t i ∧ ∀ e ∈ es', e.caller ≠ some i := by
  refine Machine.run_invariant _ (fun _ es' t => Gone t i ∧ ∀ e ∈ es', e.caller ≠ some i)
    ⟨gone, by simp⟩ ?_ run
  rintro is es' u input v o _ ⟨hgone, hsilent⟩ hstep
  obtain ⟨hgone', hsilent'⟩ := hgone.step hstep
  exact ⟨hgone', fun e he => (List.mem_append.mp he).elim (hsilent e) (hsilent' e)⟩

theorem Linear.gone (l : Linear db es s) {input : h.Input} {e : h.Event}
    (step : (h.machine queueSize).step s input = some (t, [e])) (ended : e.ended = some i) :
    Gone t i := by
  cases step_cases step with
  | call r => cases ended
  | send _ _ => cases ended
  | handle _ _ => cases ended
  | finish waiting _ =>
    cases ended
    exact ⟨l.calls_lt _ _ waiting, by simp⟩
  | cancel live =>
    cases ended
    exact ⟨l.calls_lt _ _ live, by simp⟩

theorem silent_after_end {inputs : List h.Input} {before after : List h.Event} {e : h.Event}
    (run : (h.machine queueSize).run (.new db) inputs = some (t, before ++ e :: after))
    (ended : e.ended = some i) : ∀ e' ∈ after, e'.caller ≠ some i := by
  obtain ⟨_, _, _, mid, mid', _, hleft, hstep, hright⟩ := Machine.run_split _ step_single run
  have hlinear : Linear db before mid := by simpa using (Linear.initial db).run hleft
  exact ((hlinear.gone hstep ended).run hright).2

end Ends

section Progress

variable {queueSize : ℕ} {db : h.Db} {es o : List h.Event} {s t : h.State}

def Input.isWorker : h.Input → Bool
  | .receive => true
  | .handle _ => true
  | .reply => true
  | _ => false

def Worker.phase : h.Worker → ℕ
  | .replying _ _ => 0
  | .receiving => 1
  | .handling _ _ => 2

theorem Worker.phase_le (w : h.Worker) : w.phase ≤ 2 := by
  cases w <;> simp [Worker.phase]

theorem Worker.taken_le (w : h.Worker) : 3 * w.taken.length ≤ w.phase + 1 := by
  cases w <;> simp [Worker.phase, Worker.taken]

/-- How many steps of its loop the worker has taken. -/
def progress (es : List h.Event) (s : h.State) : ℕ := 3 * (executions es).length + s.worker.phase

theorem progress_step {input : h.Input}
    (step : (h.machine queueSize).step s input = some (t, o)) :
    progress (es ++ o) t = progress es s + if input.isWorker then 1 else 0 := by
  cases step_cases step with
  | call r => rw [progress, executions_concat rfl]; rfl
  | send _ _ => rw [progress, executions_concat rfl]; rfl
  | receive idle _ => simp [progress, idle, Worker.phase, Input.isWorker]
  | handle taken _ =>
    rw [progress, executions_append, List.length_append]
    simp only [progress, taken, Worker.phase, Input.isWorker, if_true]
    change 3 * ((executions es).length + 1) + 0 = _
    omega
  | reply executed => simp [progress, executed, Worker.phase, Input.isWorker]
  | finish _ _ => rw [progress, executions_concat rfl]; rfl
  | cancel _ => rw [progress, executions_concat rfl]; rfl

theorem progress_run {inputs : List h.Input} {es' : List h.Event}
    (run : (h.machine queueSize).run s inputs = some (t, es')) :
    progress (es ++ es') t = progress es s + inputs.countP Input.isWorker := by
  refine Machine.run_invariant _
    (fun is es' t => progress (es ++ es') t = progress es s + is.countP Input.isWorker)
    (by simp) ?_ run
  intro is es' u input v o _ hprogress hstep
  rw [← List.append_assoc, progress_step hstep, hprogress, List.countP_append,
    List.countP_singleton, Nat.add_assoc]

/-- Whatever the callers do, the worker executes the messages that are in the queue within
three steps for each of them. -/
theorem Linear.executes (l : Linear db es s) {inputs : List h.Input} {es' : List h.Event}
    (run : (h.machine queueSize).run s inputs = some (t, es'))
    (enough : 3 * s.queue.length + 1 ≤ inputs.countP Input.isWorker) :
    messages es <+: (executions (es ++ es')).map Execution.message := by
  have hprogress : progress (es ++ es') t = progress es s + _ := progress_run run
  have hlength :
      (messages es).length ≤ ((executions (es ++ es')).map Execution.message).length := by
    have hphase := t.worker.phase_le
    have htaken := s.worker.taken_le
    rw [l.fifo]
    simp only [List.length_append, List.length_map]
    unfold progress at hprogress
    omega
  have hall : messages es <+: messages (es ++ es') := by
    rw [messages_append]
    exact List.prefix_append _ _
  have hexecuted : (executions (es ++ es')).map Execution.message <+: messages (es ++ es') := by
    rw [(l.run run).fifo, List.append_assoc]
    exact List.prefix_append _ _
  exact List.prefix_of_prefix_length_le hall hexecuted hlength

theorem worker_ready (s : h.State) (e : h.Env)
    (fine : ∀ i r, s.worker = .handling i r → (h.handle r e s.db).isSome)
    (busy : s.worker = .receiving → s.queue ≠ []) :
    ∃ input, input.isWorker ∧ ((h.machine queueSize).step s input).isSome := by
  cases hworker : s.worker with
  | receiving =>
    cases hqueue : s.queue with
    | nil => exact absurd hqueue (busy hworker)
    | cons m queue => exact ⟨.receive, rfl, by simp [machine, hworker, hqueue]⟩
  | handling i r =>
    obtain ⟨p, hp⟩ := Option.isSome_iff_exists.mp (fine i r hworker)
    exact ⟨.handle e, rfl, by simp [machine, hworker, handleGenericRequest, hp]⟩
  | replying i result => exact ⟨.reply, rfl, by simp [machine, hworker]⟩

end Progress

section Linearization

variable {queueSize : ℕ} {db : h.Db} {es : List h.Event} {s : h.State}

/-- One order of the executed requests accounts for all that the callers and the database see. -/
structure Linearization (db : h.Db) (es : List h.Event) (s : h.State)
    (order : List h.Execution) : Prop where
  /-- The handlers were called one at a time. -/
  database : replay db order = some s.db
  /-- A call returns what the handler of its own request returned. -/
  responses : ∀ i r result, .returned i r result ∈ es → .called i r ∈ es ∧
    ∃ a, Answered db order i r a ∧ result = a.mapError .handler
  delivered : ∀ before i r result after, es = before ++ .returned i r result :: after →
    ∀ r' result', .returned i r' result' ∉ after
  realTime : ∀ before i r result between j r' after,
    es = before ++ .returned i r result :: (between ++ .called j r' :: after) →
    ∃ first rest, order = first ++ rest ∧ i ∈ first.map Execution.call ∧
      j ∉ first.map Execution.call
  once : (order.map Execution.call).Nodup
  sent : ∀ i r e, ⟨i, r, e⟩ ∈ order → .sent i r ∈ es
  cancelled : ∀ before i after, es = before ++ .cancelled i :: after →
    (∀ r, .sent i r ∉ before) → i ∉ order.map Execution.call

theorem Linear.sent_of_call (l : Linear db es s) {i : ℕ}
    (executed : i ∈ (executions es).map Execution.call) : ∃ r, .sent i r ∈ es := by
  obtain ⟨x, hx, rfl⟩ := List.mem_map.mp executed
  exact ⟨x.request, mem_messages.mp (l.executed_message (List.mem_map_of_mem hx))⟩

theorem Linear.once (l : Linear db es s) : ((executions es).map Execution.call).Nodup := by
  have hexecuted : (executions es).map Execution.message <+: messages es := by
    rw [l.fifo, List.append_assoc]
    exact List.prefix_append _ _
  have hnodup := l.nodup.sublist (hexecuted.sublist.map Prod.fst)
  rwa [List.map_map] at hnodup

theorem Answered.call {order : List h.Execution} {i : ℕ} {r : h.Request}
    {a : Except String (h.El (h.Response r))} (answered : Answered db order i r a) :
    i ∈ order.map Execution.call := by
  obtain ⟨x, hx, hmessage⟩ := List.mem_map.mp answered.mem
  exact List.mem_map.mpr ⟨x, hx, (Prod.mk.inj hmessage).1⟩

theorem realTime_of_run {inputs : List h.Input} {before between after : List h.Event}
    {i j : ℕ} {r r' : h.Request} {result : Except RunError (h.El (h.Response r))}
    (run : (h.machine queueSize).run (.new db) inputs =
      some (s, before ++ .returned i r result :: (between ++ .called j r' :: after))) :
    ∃ first rest, executions
        (before ++ .returned i r result :: (between ++ .called j r' :: after)) = first ++ rest ∧
      i ∈ first.map Execution.call ∧ j ∉ first.map Execution.call := by
  have hsplit : before ++ .returned i r result :: (between ++ .called j r' :: after) =
      (before ++ .returned i r result :: between) ++ .called j r' :: after := by simp
  rw [hsplit] at run ⊢
  obtain ⟨_, _, _, mid, mid', _, hleft, hstep, _⟩ := Machine.run_split _ step_single run
  have hlinear : Linear db (before ++ .returned i r result :: between) mid := by
    simpa using (Linear.initial db).run hleft
  refine ⟨_, _, executions_append _ _, ?_, fun hj => ?_⟩
  · obtain ⟨_, a, hanswered, _⟩ := hlinear.returned i r result (by simp)
    exact hanswered.call
  · obtain ⟨r'', hsent⟩ := hlinear.sent_of_call hj
    have hlt := hlinear.messages_lt j r'' (mem_messages.mpr hsent)
    cases step_cases hstep
    exact Nat.lt_irrefl _ hlt

theorem linearization_of_run {inputs : List h.Input}
    (run : (h.machine queueSize).run (.new db) inputs = some (s, es)) :
    Linearization db es s (executions es) := by
  have hlinear : Linear db es s := by simpa using (Linear.initial db).run run
  refine ⟨hlinear.database, hlinear.returned, ?_, ?_, hlinear.once, ?_, ?_⟩
  · rintro before i r result after rfl r' result' hagain
    exact silent_after_end run rfl _ hagain rfl
  · rintro before i r result between j r' after rfl
    exact realTime_of_run run
  · intro i r e he
    exact mem_messages.mp (hlinear.executed_message (List.mem_map_of_mem he))
  · rintro before i after rfl hunsent hexecuted
    obtain ⟨r, hsent⟩ := hlinear.sent_of_call hexecuted
    rcases List.mem_append.mp hsent with hbefore | hafter
    · exact hunsent r hbefore
    · rcases List.mem_cons.mp hafter with hend | hafter
      · cases hend
      · exact silent_after_end run rfl _ hafter rfl

/-- For any number of callers, any queue size, any interleaving and any cancellations, as long as
no handler panics: one order of the executed requests explains the database and every response,
it respects real time, and a call that is cancelled before it is in the queue is not in it. No
downcast fails. Everything that entered the queue is executed once, within three steps of the
worker for each message in it, whatever the callers do meanwhile, and the worker never waits for
them. -/
theorem linearizable {inputs : List h.Input}
    (run : (h.machine queueSize).run (.new db) inputs = some (s, es)) :
    (∃ order, Linearization db es s order) ∧
    (∀ i r, .returned i r (.error .typeMismatch) ∉ es) ∧
    (∀ inputs' t es', (h.machine queueSize).run s inputs' = some (t, es') →
      3 * s.queue.length + 1 ≤ inputs'.countP Input.isWorker →
      ∀ i r, .sent i r ∈ es → ((executions (es ++ es')).map Execution.call).count i = 1 ∧
        ∃ e, ⟨i, r, e⟩ ∈ executions (es ++ es')) ∧
    ∀ i r e, .sent i r ∈ es → (∀ e', ⟨i, r, e'⟩ ∉ executions es) →
      (∀ j r', s.worker = .handling j r' → (h.handle r' e s.db).isSome) →
      ∃ input, input.isWorker ∧ ((h.machine queueSize).step s input).isSome := by
  have hlinear : Linear db es s := by simpa using (Linear.initial db).run run
  refine ⟨⟨executions es, linearization_of_run run⟩, fun i r htyped => ?_, ?_, ?_⟩
  · obtain ⟨_, a, _, heq⟩ := hlinear.returned i r _ htyped
    cases a <;> cases heq
  · intro inputs' t es' run' enough i r hsent
    have hexecuted := (hlinear.executes run' enough).subset (mem_messages.mpr hsent)
    obtain ⟨⟨j, r', e⟩, hx, hmessage⟩ := List.mem_map.mp hexecuted
    obtain ⟨rfl, rfl⟩ : j = i ∧ r' = r := Prod.mk.inj hmessage
    exact ⟨List.count_eq_one_of_mem (hlinear.run run').once (List.mem_map_of_mem hx), e, hx⟩
  · intro i r e hsent hunexecuted fine
    refine worker_ready s e fine fun hidle hempty => ?_
    -- An idle worker with an empty queue has executed every message.
    have hfifo := hlinear.fifo
    rw [hidle, hempty, List.append_nil] at hfifo
    have hmem := mem_messages.mpr hsent
    rw [hfifo] at hmem
    obtain ⟨⟨j, r', e'⟩, hx, hmessage⟩ := List.mem_map.mp (by simpa [Worker.taken] using hmem)
    obtain ⟨rfl, rfl⟩ : j = i ∧ r' = r := Prod.mk.inj hmessage
    exact hunexecuted e' hx

/-- Two callers take a number, and a third is gone before its message is in the queue; the second
is dropped while its message waits. -/
def twoCounted : List (feedHandlers tradeJson true).Input :=
  [.call .getNextTradeCounter, .call .getNextTradeCounter, .call (.checkIdExists "1-5541.2"),
    .send 0, .cancel 2, .receive, .send 1, .cancel 1, .handle [], .reply, .receive, .finish 0]

theorem two_counted_linearizable : ∃ s es t es',
    ((feedHandlers tradeJson true).machine 1).run (.new FeedStore.first.db) twoCounted =
      some (s, es) ∧
    ((feedHandlers tradeJson true).machine 1).run s [.handle []] = some (t, es') ∧
    (∃ order, Linearization FeedStore.first.db es s order) ∧
    ((executions (es ++ es')).map Execution.call).count 1 = 1 := by
  have hrun : (((feedHandlers tradeJson true).machine 1).run (.new FeedStore.first.db)
      (twoCounted ++ [.handle []])).isSome := by decide +kernel
  have hsent : (((feedHandlers tradeJson true).machine 1).run (.new FeedStore.first.db)
      twoCounted).map (fun p => (p.1.queue.length, (messages p.2).map Prod.fst)) =
        some (0, [0, 1]) := by decide +kernel
  obtain ⟨⟨t, os⟩, hall⟩ := Option.isSome_iff_exists.mp hrun
  obtain ⟨s, es, es', run, run', rfl⟩ := (Machine.run_append_iff _).mp hall
  rw [run, Option.map_some] at hsent
  obtain ⟨hqueue, hmessages⟩ := Prod.mk.inj (Option.some.inj hsent)
  obtain ⟨⟨i, r⟩, hmem, rfl⟩ : ∃ m ∈ messages es, m.1 = 1 :=
    List.mem_map.mp (by rw [hmessages]; simp)
  obtain ⟨horder, _, hexecuted, _⟩ := linearizable run
  exact ⟨s, es, t, es', run, run', horder,
    (hexecuted _ t es' run' (by rw [hqueue]; decide) _ r (mem_messages.mp hmem)).1⟩

end Linearization

end RustExperiments.AsyncRedb.Handlers
