/- module: RustExperiments/AsyncRedb/Calls
   digest: What the callers rely on of the queue, the worker and the replies. -/

import RustExperiments.AsyncRedb.Disconnect

set_option autoImplicit false
set_option relaxedAutoImplicit false

namespace RustExperiments.AsyncRedb

open RustExperiments.Lib

namespace Handlers

variable {h : Handlers} {left : (r : h.Request) → h.Env → h.Db → h.Db}

def State.pending (s : h.State) : List (ℕ × h.Request) := s.worker.taken ++ s.queue

def State.result (s : h.State) (j : ℕ) : Option (Except String h.Any) :=
  match s.responses.lookup j with
  | some result => some result
  | none =>
    match s.worker with
    | .replying i result => if i = j then some result else none
    | _ => none

def State.Live (s : h.State) (j : ℕ) (r : h.Request) : Prop :=
  s.calls.lookup j = some (.sending r) ∨ s.calls.lookup j = some (.waiting r)

section Reached

variable {queueSize : ℕ} {db : h.Db} {es : List h.Event} {s : h.State} {c d : h.Shared}

theorem Owed.call {order : List h.Execution} {i : ℕ} {result : Except String h.Any}
    (owed : Owed db order i result) : i ∈ order.map Execution.call := by
  obtain ⟨r, a, hanswered, _⟩ := owed
  exact hanswered.call

theorem Owed.unique {order : List h.Execution} {i : ℕ} {result result' : Except String h.Any}
    (once : (order.map Execution.call).Nodup) (owed : Owed db order i result)
    (owed' : Owed db order i result') : result = result' := by
  obtain ⟨r, a, ⟨before, e, after, mid, mid', horder, hreplay, hhandle⟩, rfl⟩ := owed
  obtain ⟨r', a', ⟨before', e', after', _, _, horder', hreplay', hhandle'⟩, rfl⟩ := owed'
  have hsame : before ++ ⟨i, r, e⟩ :: after = before' ++ ⟨i, r', e'⟩ :: after' := by
    rw [← horder, horder']
  have hone : (⟨i, r, e⟩ : h.Execution) = ⟨i, r', e'⟩ :=
    List.inj_on_of_nodup_map once (by simp [horder]) (by simp [horder']) rfl
  cases hone
  have hnodup := List.Nodup.of_map _ once
  rw [horder, List.nodup_middle, List.nodup_cons, List.mem_append, not_or] at hnodup
  obtain ⟨rfl, _, _⟩ := (List.append_cons_inj_of_notMem hnodup.1.1 hnodup.1.2).mp hsame
  obtain rfl : mid = _ := Option.some.inj (hreplay.symm.trans hreplay')
  rw [hhandle] at hhandle'
  cases hhandle'
  rfl

theorem Linear.owed (l : Linear db es s) {j : ℕ} {result : Except String h.Any}
    (has : s.result j = some result) : Owed db (executions es) j result := by
  unfold State.result at has
  split at has
  · rename_i hresponse
    cases has
    exact l.responses j _ hresponse
  · split at has
    · rename_i hworker
      split_ifs at has with hj
      cases has
      exact hj ▸ l.replying _ _ hworker
    · cases has

theorem Linear.pending_nodup (l : Linear db es s) :
    ((executions es).map Execution.call ++ s.pending.map Prod.fst).Nodup := by
  have hnodup := l.nodup
  rwa [l.fifo, List.append_assoc, List.map_append, List.map_map] at hnodup

theorem Linear.call_lt (l : Linear db es s) {j : ℕ}
    (executed : j ∈ (executions es).map Execution.call) : j < s.next := by
  obtain ⟨r, hsent⟩ := l.sent_of_call executed
  exact l.messages_lt j r (mem_messages.mpr hsent)

/-- What the callers rely on, before the panic and behind it. -/
structure Sound (c : h.Shared) : Prop where
  calls_lt : ∀ j call, c.state.calls.lookup j = some call → j < c.state.next
  result_lt : ∀ j result, c.state.result j = some result → j < c.state.next
  nodup : (c.state.pending.map Prod.fst).Nodup
  unexecuted : ∀ j r, (j, r) ∈ c.state.pending → c.state.result j = none
  unsent : ∀ j r, c.state.calls.lookup j = some (.sending r) →
    c.state.result j = none ∧ ∀ r', (j, r') ∉ c.state.pending
  agree : ∀ j result result', c.state.worker = .replying j result →
    c.state.responses.lookup j = some result' → result' = result
  ended : c.panicked = true → c.state.worker = .receiving ∧ c.state.queue = []

theorem Linear.sound (l : Linear db es s) : Sound ⟨s, false⟩ where
  calls_lt := l.calls_lt
  result_lt j result has := l.call_lt (l.owed has).call
  nodup := (List.nodup_append.mp l.pending_nodup).2.1
  unexecuted j r pending := by
    cases hresult : s.result j with
    | none => rfl
    | some result =>
      have hne := (List.nodup_append.mp l.pending_nodup).2.2 j (l.owed hresult).call j
        (List.mem_map_of_mem pending)
      exact absurd rfl hne
  unsent j r sending := by
    have hunsent := (l.sending j r sending).2
    refine ⟨?_, fun r' hpending => hunsent ?_⟩
    · cases hresult : s.result j with
      | none => rfl
      | some result =>
        obtain ⟨r', hsent⟩ := l.sent_of_call (l.owed hresult).call
        exact absurd (List.mem_map_of_mem (mem_messages.mpr hsent)) hunsent
    · rw [l.fifo, List.append_assoc]
      exact List.mem_map_of_mem (f := Prod.fst) (List.mem_append_right _ hpending)
  agree j result result' replying response :=
    Owed.unique l.once (l.responses j result' response) (l.replying j result replying)
  ended := nofun

theorem Sound.abandon (sound : Sound ⟨s, false⟩) {i : ℕ} {r : h.Request} (db : h.Db)
    (taken : s.worker = .handling i r) : Sound ⟨s.abandon db, true⟩ := by
  have hresult : ∀ j, (s.abandon db).result j = s.result j := by
    intro j
    simp only [State.result, State.abandon, taken]
  refine ⟨sound.calls_lt, fun j result has => ?_, List.nodup_nil, fun j r' hpending => ?_,
    fun j r' hsending => ?_, nofun, fun _ => ⟨rfl, rfl⟩⟩
  · exact sound.result_lt j result (by rw [← hresult]; exact has)
  · cases hpending
  · refine ⟨?_, fun _ hpending => by cases hpending⟩
    rw [hresult]
    exact (sound.unsent j r' hsending).1

def Reached (left : (r : h.Request) → h.Env → h.Db → h.Db) (c : h.Shared) : Prop :=
  ∃ db es s out, Linear db es s ∧ Stands left out c s

theorem Reached.initial (db : h.Db) : Reached left ⟨.new db, false⟩ :=
  ⟨db, [], .new db, [], .initial db, Or.inl ⟨rfl, by simp⟩⟩

theorem Reached.step (reached : Reached left c) {input : h.Input} {o : List h.Notice}
    (step : (h.panicking left queueSize).step c input = some (d, o)) : Reached left d := by
  obtain ⟨db, es, s, out, hlinear, hstands⟩ := reached
  obtain ⟨inputs, s', run, hstands'⟩ := hstands.step step
  exact ⟨db, _, s', _, hlinear.run run, hstands'⟩

theorem Reached.sound (reached : Reached left c) : Sound c := by
  obtain ⟨db, es, s, out, hlinear, ⟨rfl, _⟩ | ⟨i, r, e, _, htaken, _, rfl⟩⟩ := reached
  · exact hlinear.sound
  · exact hlinear.sound.abandon _ htaken

theorem Sound.result_reply (sound : Sound c) {i j : ℕ} {r : h.Request}
    {result : Except String h.Any} (executed : c.state.worker = .replying i result)
    (live : c.state.Live j r) :
    State.result { c.state with responses := respond c.state i result, worker := .receiving } j =
      c.state.result j := by
  by_cases hj : j = i
  · subst hj
    have hagree := sound.agree j result
    rcases live with hsending | hwaiting
    · have hunsent := (sound.unsent j r hsending).1
      cases hresponse : c.state.responses.lookup j with
      | none => simp [State.result, hresponse, executed] at hunsent
      | some result' => simp [State.result, hresponse] at hunsent
    · cases hresponse : c.state.responses.lookup j with
      | none => simp [State.result, respond, hwaiting, hresponse, executed]
      | some result' =>
        obtain rfl := hagree result' executed hresponse
        simp [State.result, respond, hwaiting, hresponse]
  · have hother : (respond c.state i result).lookup j = c.state.responses.lookup j := by
      simp only [respond]
      split
      · rw [Table.lookup_insert_ite, if_neg hj]
      · rfl
    simp only [State.result, hother, executed, if_neg (Ne.symm hj)]

theorem result_without {j j' : ℕ} (other : j' ≠ j) :
    (s.without j).result j' = s.result j' := by
  simp only [State.result, State.without, Table.lookup_erase_ite, if_neg other]

theorem live_without {j j' : ℕ} {r : h.Request} (other : j' ≠ j) (live : s.Live j' r) :
    (s.without j).Live j' r := by
  simp only [State.Live, State.without, Table.lookup_erase_ite, if_neg other]
  exact live

theorem panicking_call (c : h.Shared) (r : h.Request) :
    (h.panicking left queueSize).step c (.call r) =
      some (⟨{ c.state with
          calls := c.state.calls.insert c.state.next (.sending r)
          next := c.state.next + 1 }, c.panicked⟩, [.event (.called c.state.next r)]) := by
  obtain ⟨s, panicked⟩ := c
  cases panicked <;> rfl

theorem panicking_receive {o : List h.Notice}
    (step : (h.panicking left queueSize).step c .receive = some (d, o)) :
    ∃ i r queue, c.state.worker = .receiving ∧ c.state.queue = (i, r) :: queue ∧
      d = ⟨{ c.state with queue := queue, worker := .handling i r }, c.panicked⟩ := by
  cases shared_step_cases step with
  | event hstep _ =>
    cases step_cases hstep with
    | receive idle head => exact ⟨_, _, _, idle, head, rfl⟩

theorem panicking_reply {o : List h.Notice}
    (step : (h.panicking left queueSize).step c .reply = some (d, o)) :
    ∃ i result, c.state.worker = .replying i result ∧
      d = ⟨{ c.state with responses := respond c.state i result, worker := .receiving },
        c.panicked⟩ := by
  cases shared_step_cases step with
  | event hstep _ =>
    cases step_cases hstep with
    | reply executed => exact ⟨_, _, executed, rfl⟩

theorem panicking_send {j : ℕ} {o : List h.Notice}
    (step : (h.panicking left queueSize).step c (.send j) = some (d, o)) :
    ∃ r, c.state.calls.lookup j = some (.sending r) ∧
      ((c.panicked = false ∧ d = ⟨{ c.state with
          queue := c.state.queue ++ [(j, r)]
          calls := c.state.calls.insert j (.waiting r) }, false⟩) ∨
        (c.panicked = true ∧ d = ⟨c.state.without j, true⟩)) := by
  cases shared_step_cases step with
  | @event s t input o panicked hstep unsent =>
    cases step_cases hstep with
    | send sending _ =>
      cases panicked with
      | false => exact ⟨_, sending, Or.inl ⟨rfl, rfl⟩⟩
      | true => exact absurd rfl (unsent rfl j)
  | refused sending => exact ⟨_, sending, Or.inr ⟨rfl, rfl⟩⟩

theorem panicking_handle {e : h.Env} {o : List h.Notice}
    (step : (h.panicking left queueSize).step c (.handle e) = some (d, o)) :
    ∃ i r, c.state.worker = .handling i r ∧
      ((∃ a db, h.handle r e c.state.db = some (a, db) ∧
        d = ⟨{ c.state with db := db, worker := .replying i (a.map (h.box r)) }, c.panicked⟩) ∨
      (h.handle r e c.state.db = none ∧ d = ⟨c.state.abandon (left r e c.state.db), true⟩)) := by
  cases shared_step_cases step with
  | event hstep _ =>
    cases step_cases hstep with
    | handle taken handled => exact ⟨_, _, taken, Or.inl ⟨_, _, handled, rfl⟩⟩
  | panicked taken panics => exact ⟨_, _, taken, Or.inr ⟨panics, rfl⟩⟩

theorem panicking_finish {j : ℕ} {o : List h.Notice}
    (step : (h.panicking left queueSize).step c (.finish j) = some (d, o)) :
    d = ⟨c.state.without j, c.panicked⟩ ∧
      ((c.state.responses.lookup j).isSome ∨
        c.panicked = true ∧ c.state.responses.lookup j = none) := by
  cases shared_step_cases step with
  | event hstep _ =>
    cases step_cases hstep with
    | finish _ response => exact ⟨rfl, Or.inl (by simp [response])⟩
  | unanswered _ silent => exact ⟨rfl, Or.inr ⟨rfl, silent⟩⟩

theorem panicking_cancel {j : ℕ} {o : List h.Notice}
    (step : (h.panicking left queueSize).step c (.cancel j) = some (d, o)) :
    d = ⟨c.state.without j, c.panicked⟩ := by
  cases shared_step_cases step with
  | event hstep _ =>
    cases step_cases hstep with
    | cancel _ => rfl

theorem Sound.lost (sound : Sound c) (panicked : c.panicked = true) : c.state.pending = [] := by
  obtain ⟨hworker, hqueue⟩ := sound.ended panicked
  rw [State.pending, hworker, hqueue]
  rfl

end Reached

end Handlers

end RustExperiments.AsyncRedb
