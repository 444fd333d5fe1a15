/- module: RustExperiments/AsyncRedb/Order
   digest: The order of the executed requests, and what queue, worker and replies say about it. -/

import RustExperiments.AsyncRedb.Protocol

set_option autoImplicit false
set_option relaxedAutoImplicit false

namespace RustExperiments.AsyncRedb.Handlers

open RustExperiments.Lib

variable {h : Handlers}

section History

variable (h)

structure Execution where
  call : ℕ
  request : h.Request
  env : h.Env

variable {h}

def Event.execution : h.Event → Option h.Execution
  | .executed i r e => some ⟨i, r, e⟩
  | _ => none

def Event.message : h.Event → Option (ℕ × h.Request)
  | .sent i r => some (i, r)
  | _ => none

def executions (es : List h.Event) : List h.Execution := es.filterMap Event.execution

def messages (es : List h.Event) : List (ℕ × h.Request) := es.filterMap Event.message

def Execution.message (x : h.Execution) : ℕ × h.Request := (x.call, x.request)

/-- The database after the handlers were called one at a time. -/
def replay (db : h.Db) (order : List h.Execution) : Option h.Db :=
  order.foldlM (fun db x => (h.handle x.request x.env db).map Prod.snd) db

@[simp] theorem executions_append (xs ys : List h.Event) :
    executions (xs ++ ys) = executions xs ++ executions ys := List.filterMap_append ..

@[simp] theorem messages_append (xs ys : List h.Event) :
    messages (xs ++ ys) = messages xs ++ messages ys := List.filterMap_append ..

theorem executions_concat {es : List h.Event} {e : h.Event} (silent : e.execution = none) :
    executions (es ++ [e]) = executions es := by
  rw [executions_append, executions, executions, List.filterMap_cons_none silent]
  exact List.append_nil _

theorem messages_concat {es : List h.Event} {e : h.Event} (silent : e.message = none) :
    messages (es ++ [e]) = messages es := by
  rw [messages_append, messages, messages, List.filterMap_cons_none silent]
  exact List.append_nil _

theorem replay_concat (db : h.Db) (order : List h.Execution) (x : h.Execution) :
    replay db (order ++ [x]) =
      (replay db order).bind fun mid => (h.handle x.request x.env mid).map Prod.snd := by
  simp [replay, List.foldlM_append]

theorem mem_messages {es : List h.Event} {i : ℕ} {r : h.Request} :
    (i, r) ∈ messages es ↔ .sent i r ∈ es := by
  simp only [messages, List.mem_filterMap]
  constructor
  · rintro ⟨e, he, hmessage⟩
    cases e <;> cases hmessage
    exact he
  · exact fun he => ⟨_, he, rfl⟩

end History

section Invariant

/-- The handler of a call returned this at its place in the order. -/
def Answered (db : h.Db) (order : List h.Execution) (i : ℕ) (r : h.Request)
    (a : Except String (h.El (h.Response r))) : Prop :=
  ∃ before e after mid mid', order = before ++ ⟨i, r, e⟩ :: after ∧
    replay db before = some mid ∧ h.handle r e mid = some (a, mid')

def Owed (db : h.Db) (order : List h.Execution) (i : ℕ) (result : Except String h.Any) : Prop :=
  ∃ r a, Answered db order i r a ∧ result = a.map (h.box r)

theorem Answered.append {db : h.Db} {order : List h.Execution} {i : ℕ} {r : h.Request}
    {a : Except String (h.El (h.Response r))} (answered : Answered db order i r a)
    (more : List h.Execution) : Answered db (order ++ more) i r a := by
  obtain ⟨before, e, after, mid, mid', rfl, hreplay, hhandle⟩ := answered
  exact ⟨before, e, after ++ more, mid, mid', by simp, hreplay, hhandle⟩

theorem Owed.append {db : h.Db} {order : List h.Execution} {i : ℕ}
    {result : Except String h.Any} (owed : Owed db order i result) (more : List h.Execution) :
    Owed db (order ++ more) i result := by
  obtain ⟨r, a, hanswered, hresult⟩ := owed
  exact ⟨r, a, hanswered.append more, hresult⟩

theorem Answered.mem {db : h.Db} {order : List h.Execution} {i : ℕ} {r : h.Request}
    {a : Except String (h.El (h.Response r))} (answered : Answered db order i r a) :
    (i, r) ∈ order.map Execution.message := by
  obtain ⟨before, e, after, mid, mid', rfl, _, _⟩ := answered
  exact List.mem_map.mpr ⟨⟨i, r, e⟩, by simp, rfl⟩

def Worker.taken : h.Worker → List (ℕ × h.Request)
  | .handling i r => [(i, r)]
  | _ => []

def Worker.current : h.Worker → Option ℕ
  | .receiving => none
  | .handling i _ => some i
  | .replying i _ => some i

/-- What the queue, the worker, the pending replies and the history say about each other. -/
structure Linear (db : h.Db) (es : List h.Event) (s : h.State) : Prop where
  database : replay db (executions es) = some s.db
  fifo : messages es = (executions es).map Execution.message ++ s.worker.taken ++ s.queue
  nodup : ((messages es).map Prod.fst).Nodup
  messages_lt : ∀ i r, (i, r) ∈ messages es → i < s.next
  calls_lt : ∀ i c, s.calls.lookup i = some c → i < s.next
  sending : ∀ i r, s.calls.lookup i = some (.sending r) →
    .called i r ∈ es ∧ i ∉ (messages es).map Prod.fst
  waiting : ∀ i r, s.calls.lookup i = some (.waiting r) → .called i r ∈ es ∧ (i, r) ∈ messages es
  replying : ∀ i result, s.worker = .replying i result → Owed db (executions es) i result
  responses : ∀ i result, s.responses.lookup i = some result → Owed db (executions es) i result
  pending : ∀ i r, s.calls.lookup i = some (.waiting r) → (s.responses.lookup i).isSome ∨
    s.worker.current = some i ∨ i ∈ s.queue.map Prod.fst
  returned : ∀ i r result, .returned i r result ∈ es → .called i r ∈ es ∧
    ∃ a, Answered db (executions es) i r a ∧ result = a.mapError .handler

variable {db : h.Db} {es : List h.Event} {s t : h.State}

theorem Linear.initial (db : h.Db) : Linear db [] (.new db) where
  database := rfl
  fifo := rfl
  nodup := List.nodup_nil
  messages_lt := by simp [messages]
  calls_lt := by simp [State.new]
  sending := by simp [State.new]
  waiting := by simp [State.new]
  replying := by simp [State.new]
  responses := by simp [State.new]
  pending := by simp [State.new]
  returned := by simp

theorem Linear.request_unique (l : Linear db es s) {i : ℕ} {r r' : h.Request}
    (hr : (i, r) ∈ messages es) (hr' : (i, r') ∈ messages es) : r = r' := by
  have hpair := List.inj_on_of_nodup_map l.nodup hr hr' rfl
  exact (Prod.mk.inj hpair).2

theorem Linear.executed_message (l : Linear db es s) {m : ℕ × h.Request}
    (hm : m ∈ (executions es).map Execution.message) : m ∈ messages es := by
  rw [l.fifo]
  exact List.mem_append_left _ (List.mem_append_left _ hm)

end Invariant

section Steps

variable {queueSize : ℕ} {db : h.Db} {es o : List h.Event} {s t : h.State}

theorem Linear.call (l : Linear db es s) (r : h.Request) :
    Linear db (es ++ [.called s.next r])
      { s with calls := s.calls.insert s.next (.sending r), next := s.next + 1 } := by
  have hexecutions : executions (es ++ [Event.called s.next r]) = executions es :=
    executions_concat rfl
  have hmessages : messages (es ++ [Event.called s.next r]) = messages es := messages_concat rfl
  constructor <;> simp only [hexecutions, hmessages]
  case database => exact l.database
  case fifo => exact l.fifo
  case nodup => exact l.nodup
  case messages_lt =>
    intro i r' hi
    have hlt := l.messages_lt i r' hi
    omega
  case calls_lt =>
    intro i c hc
    rw [Table.lookup_insert_ite] at hc
    split_ifs at hc with hi
    · omega
    · have hlt := l.calls_lt i c hc
      omega
  case sending =>
    intro i r' hc
    rw [Table.lookup_insert_ite] at hc
    split_ifs at hc with hi
    · cases hc
      refine ⟨by simp [hi], fun hmem => ?_⟩
      obtain ⟨m, hm, hfst⟩ := List.mem_map.mp hmem
      have hlt := l.messages_lt m.1 m.2 hm
      omega
    · obtain ⟨hcalled, hunsent⟩ := l.sending i r' hc
      exact ⟨List.mem_append_left _ hcalled, hunsent⟩
  case waiting =>
    intro i r' hc
    rw [Table.lookup_insert_ite] at hc
    split_ifs at hc with hi
    · cases hc
    · obtain ⟨hcalled, hsent⟩ := l.waiting i r' hc
      exact ⟨List.mem_append_left _ hcalled, hsent⟩
  case replying => exact l.replying
  case responses => exact l.responses
  case pending =>
    intro i r' hc
    rw [Table.lookup_insert_ite] at hc
    split_ifs at hc with hi
    · cases hc
    · exact l.pending i r' hc
  case returned =>
    intro i r' result hresult
    obtain ⟨hcalled, hanswered⟩ := l.returned i r' result (by simpa using hresult)
    exact ⟨List.mem_append_left _ hcalled, hanswered⟩

theorem Linear.send (l : Linear db es s) {i : ℕ} {r : h.Request}
    (sending : s.calls.lookup i = some (.sending r)) :
    Linear db (es ++ [.sent i r])
      { s with queue := s.queue ++ [(i, r)], calls := s.calls.insert i (.waiting r) } := by
  have hexecutions : executions (es ++ [Event.sent i r]) = executions es := executions_concat rfl
  have hmessages : messages (es ++ [Event.sent i r]) = messages es ++ [(i, r)] :=
    messages_append _ _
  obtain ⟨hcalled, hunsent⟩ := l.sending i r sending
  constructor <;> simp only [hexecutions, hmessages]
  case database => exact l.database
  case fifo => rw [l.fifo, List.append_assoc]
  case nodup =>
    rw [List.map_append, List.nodup_append]
    refine ⟨l.nodup, by simp, fun j hj k hk => ?_⟩
    obtain rfl : k = i := by simpa using hk
    exact fun heq => hunsent (heq ▸ hj)
  case messages_lt =>
    intro j r' hj
    rcases List.mem_append.mp hj with hold | hnew
    · exact l.messages_lt j r' hold
    · cases List.mem_singleton.mp hnew
      exact l.calls_lt i _ sending
  case calls_lt =>
    intro j c hc
    rw [Table.lookup_insert_ite] at hc
    split_ifs at hc with hj
    · exact hj ▸ l.calls_lt i _ sending
    · exact l.calls_lt j c hc
  case sending =>
    intro j r' hc
    rw [Table.lookup_insert_ite] at hc
    split_ifs at hc with hj
    · cases hc
    · obtain ⟨hcalled', hunsent'⟩ := l.sending j r' hc
      refine ⟨List.mem_append_left _ hcalled', ?_⟩
      rw [List.map_append, List.mem_append]
      rintro (hold | hnew)
      · exact hunsent' hold
      · exact hj (by simpa using hnew)
  case waiting =>
    intro j r' hc
    rw [Table.lookup_insert_ite] at hc
    split_ifs at hc with hj
    · subst hj
      cases hc
      exact ⟨List.mem_append_left _ hcalled, by simp⟩
    · obtain ⟨hcalled', hsent⟩ := l.waiting j r' hc
      exact ⟨List.mem_append_left _ hcalled', List.mem_append_left _ hsent⟩
  case replying => exact l.replying
  case responses => exact l.responses
  case pending =>
    intro j r' hc
    rw [Table.lookup_insert_ite] at hc
    rw [List.map_append, List.mem_append]
    split_ifs at hc with hj
    · exact Or.inr (Or.inr (Or.inr (by simp [hj])))
    · rcases l.pending j r' hc with hresponse | hcurrent | hqueued
      · exact Or.inl hresponse
      · exact Or.inr (Or.inl hcurrent)
      · exact Or.inr (Or.inr (Or.inl hqueued))
  case returned =>
    intro j r' result hresult
    obtain ⟨hcalled', hanswered⟩ := l.returned j r' result (by simpa using hresult)
    exact ⟨List.mem_append_left _ hcalled', hanswered⟩

theorem Linear.receive (l : Linear db es s) {i : ℕ} {r : h.Request} {queue : List (ℕ × h.Request)}
    (idle : s.worker = .receiving) (head : s.queue = (i, r) :: queue) :
    Linear db es { s with queue := queue, worker := .handling i r } where
  database := l.database
  fifo := by
    have hfifo := l.fifo
    rw [idle, head] at hfifo
    simpa [Worker.taken] using hfifo
  nodup := l.nodup
  messages_lt := l.messages_lt
  calls_lt := l.calls_lt
  sending := l.sending
  waiting := l.waiting
  replying j result hreplying := by cases hreplying
  responses := l.responses
  pending j r' hc := by
    rcases l.pending j r' hc with hresponse | hcurrent | hqueued
    · exact Or.inl hresponse
    · rw [idle] at hcurrent
      cases hcurrent
    · rw [head, List.map_cons, List.mem_cons] at hqueued
      rcases hqueued with rfl | hqueued
      · exact Or.inr (Or.inl rfl)
      · exact Or.inr (Or.inr hqueued)
  returned := l.returned

theorem Linear.handle (l : Linear db es s) {i : ℕ} {r : h.Request} {e : h.Env}
    {a : Except String (h.El (h.Response r))} {db' : h.Db} (taken : s.worker = .handling i r)
    (handled : h.handle r e s.db = some (a, db')) :
    Linear db (es ++ [.executed i r e])
      { s with db := db', worker := .replying i (a.map (h.box r)) } := by
  have hexecutions : executions (es ++ [Event.executed i r e]) = executions es ++ [⟨i, r, e⟩] :=
    executions_append _ _
  have hmessages : messages (es ++ [Event.executed i r e]) = messages es := messages_concat rfl
  constructor <;> simp only [hexecutions, hmessages]
  case database =>
    rw [replay_concat, l.database, Option.bind_some, handled]
    rfl
  case fifo =>
    have hfifo := l.fifo
    rw [taken] at hfifo
    rw [hfifo, List.map_append]
    simp [Worker.taken, Execution.message]
  case nodup => exact l.nodup
  case messages_lt => exact l.messages_lt
  case calls_lt => exact l.calls_lt
  case sending =>
    intro j r' hc
    obtain ⟨hcalled, hunsent⟩ := l.sending j r' hc
    exact ⟨List.mem_append_left _ hcalled, hunsent⟩
  case waiting =>
    intro j r' hc
    obtain ⟨hcalled, hsent⟩ := l.waiting j r' hc
    exact ⟨List.mem_append_left _ hcalled, hsent⟩
  case replying =>
    intro j result hreplying
    cases hreplying
    exact ⟨r, a, ⟨executions es, e, [], s.db, db', rfl, l.database, handled⟩, rfl⟩
  case responses =>
    intro j result hresponse
    exact (l.responses j result hresponse).append _
  case pending =>
    intro j r' hc
    rcases l.pending j r' hc with hresponse | hcurrent | hqueued
    · exact Or.inl hresponse
    · rw [taken] at hcurrent
      exact Or.inr (Or.inl hcurrent)
    · exact Or.inr (Or.inr hqueued)
  case returned =>
    intro j r' result hresult
    obtain ⟨hcalled, a', hanswered, heq⟩ := l.returned j r' result (by simpa using hresult)
    exact ⟨List.mem_append_left _ hcalled, a', hanswered.append _, heq⟩

theorem Linear.reply (l : Linear db es s) {i : ℕ} {result : Except String h.Any}
    (executed : s.worker = .replying i result) :
    Linear db es { s with responses := respond s i result, worker := .receiving } where
  database := l.database
  fifo := by
    have hfifo := l.fifo
    rw [executed] at hfifo
    exact hfifo
  nodup := l.nodup
  messages_lt := l.messages_lt
  calls_lt := l.calls_lt
  sending := l.sending
  waiting := l.waiting
  replying j result hreplying := by cases hreplying
  responses j result' hresponse := by
    simp only [respond] at hresponse
    split at hresponse
    · rw [Table.lookup_insert_ite] at hresponse
      split_ifs at hresponse with hj
      · cases hresponse
        exact hj ▸ l.replying i result executed
      · exact l.responses j result' hresponse
    · exact l.responses j result' hresponse
  pending j r hc := by
    simp only [respond]
    rcases l.pending j r hc with hresponse | hcurrent | hqueued
    · split
      · refine Or.inl ?_
        rw [Table.lookup_insert_ite]
        split_ifs
        · rfl
        · exact hresponse
      · exact Or.inl hresponse
    · rw [executed] at hcurrent
      obtain rfl : i = j := Option.some.inj hcurrent
      refine Or.inl ?_
      rw [hc, Table.lookup_insert_ite, if_pos rfl]
      rfl
    · exact Or.inr (Or.inr hqueued)
  returned := l.returned

theorem Linear.leave (l : Linear db es s) (i : ℕ) {e : h.Event} (silent : e.execution = none)
    (unsent : e.message = none)
    (returned : ∀ j r result, e = .returned j r result → .called j r ∈ es ∧
      ∃ a, Answered db (executions es) j r a ∧ result = a.mapError .handler) :
    Linear db (es ++ [e])
      { s with calls := s.calls.erase i, responses := s.responses.erase i } := by
  have hexecutions : executions (es ++ [e]) = executions es := executions_concat silent
  have hmessages : messages (es ++ [e]) = messages es := messages_concat unsent
  have hcall : ∀ {j c}, (s.calls.erase i).lookup j = some c → j ≠ i ∧ s.calls.lookup j = some c := by
    intro j c hc
    rw [Table.lookup_erase_ite] at hc
    split_ifs at hc with hj
    exact ⟨hj, hc⟩
  constructor <;> simp only [hexecutions, hmessages]
  case database => exact l.database
  case fifo => exact l.fifo
  case nodup => exact l.nodup
  case messages_lt => exact l.messages_lt
  case calls_lt => exact fun j c hc => l.calls_lt j c (hcall hc).2
  case sending =>
    intro j r hc
    obtain ⟨hcalled, hunsent⟩ := l.sending j r (hcall hc).2
    exact ⟨List.mem_append_left _ hcalled, hunsent⟩
  case waiting =>
    intro j r hc
    obtain ⟨hcalled, hsent⟩ := l.waiting j r (hcall hc).2
    exact ⟨List.mem_append_left _ hcalled, hsent⟩
  case replying => exact l.replying
  case responses =>
    intro j result hresponse
    rw [Table.lookup_erase_ite] at hresponse
    split_ifs at hresponse
    exact l.responses j result hresponse
  case pending =>
    intro j r hc
    rw [Table.lookup_erase_ite, if_neg (hcall hc).1]
    exact l.pending j r (hcall hc).2
  case returned =>
    intro j r result hresult
    rcases List.mem_append.mp hresult with hold | hnew
    · obtain ⟨hcalled, hanswered⟩ := l.returned j r result hold
      exact ⟨List.mem_append_left _ hcalled, hanswered⟩
    · obtain ⟨hcalled, hanswered⟩ := returned j r result (List.mem_singleton.mp hnew).symm
      exact ⟨List.mem_append_left _ hcalled, hanswered⟩

theorem Linear.finish (l : Linear db es s) {i : ℕ} {r : h.Request} {result : Except String h.Any}
    (waiting : s.calls.lookup i = some (.waiting r))
    (response : s.responses.lookup i = some result) :
    Linear db (es ++ [.returned i r (h.unbox r result)])
      { s with calls := s.calls.erase i, responses := s.responses.erase i } := by
  refine l.leave i rfl rfl fun j r' result' he => ?_
  cases he
  obtain ⟨hcalled, hsent⟩ := l.waiting i r waiting
  obtain ⟨r', a, hanswered, rfl⟩ := l.responses i result response
  -- The response is that of this call's own request, so it has the type asked for.
  obtain rfl := l.request_unique hsent (l.executed_message hanswered.mem)
  exact ⟨hcalled, a, hanswered, unbox_box r a⟩

theorem Linear.step (l : Linear db es s) {input : h.Input}
    (step : (h.machine queueSize).step s input = some (t, o)) : Linear db (es ++ o) t := by
  cases step_cases step with
  | call r => exact l.call r
  | send sending _ => exact l.send sending
  | receive idle head =>
    rw [List.append_nil]
    exact l.receive idle head
  | handle taken handled => exact l.handle taken handled
  | reply executed =>
    rw [List.append_nil]
    exact l.reply executed
  | finish waiting response => exact l.finish waiting response
  | @cancel i c _ => exact l.leave i rfl rfl fun _ _ _ he => by cases he

theorem Linear.run (l : Linear db es s) {inputs : List h.Input} {es' : List h.Event}
    (run : (h.machine queueSize).run s inputs = some (t, es')) : Linear db (es ++ es') t := by
  refine Machine.run_invariant _ (fun _ es' t => Linear db (es ++ es') t) (by simpa using l) ?_ run
  intro is es' u input v o _ hu hstep
  rw [← List.append_assoc]
  exact hu.step hstep

end Steps

end RustExperiments.AsyncRedb.Handlers
