/- module: RustExperiments/Maroon/Sockets
   digest: The executor over the channels of its WebSocket writers: what arrives, and who waits. -/

import RustExperiments.Lib.Channel
import RustExperiments.Maroon.Timetable

set_option autoImplicit false
set_option relaxedAutoImplicit false

namespace RustExperiments.Maroon

open RustExperiments.Lib

/-- The channel of a `WebSocketWriter` with the task spawned for it. What the relay has passed is
what `socket.send` was called with, whatever came of it. -/
structure Connection where
  relay : Relay String 100
  /-- the task has left its loop, its receiver and its socket are dropped -/
  ended : Bool
  deriving DecidableEq

/-- `WebSocketWriter::new`. -/
def Connection.new : Connection := ⟨.new String 100, false⟩

/-- `write_text`: the new connection and the result, once `send` on the channel gets through. -/
def Connection.writeText (c : Connection) (text : String) :
    Option (Connection × Except String Unit) :=
  if c.ended then some (c, .error "channel closed")
  else (c.relay.offer text).map fun relay => ({ c with relay := relay }, .ok ())

/-- The runtime behind its mutex, and the connections of the writers. -/
structure Served (W : Type) (H : PendingHeap) where
  fsm : MaroonRuntime W H
  /-- the executor waits in `write_text`, and holds the mutex -/
  writing : Option (W × String)
  connections : Table W Connection

inductive Service (W : Type) where
  /-- a handler has made a writer of its socket and takes the mutex in `schedule` -/
  | connect (w : W) (l : Launch) (ts : LogicalTimeAbsoluteMs)
  /-- the executor takes the mutex, up to the end of its iteration or to its `write_text` -/
  | iterate (cutoff : LogicalTimeAbsoluteMs)
  /-- the awaited `write_text` returns, and the iteration ends -/
  | write
  /-- the task of a connection receives the next text -/
  | receive (w : W)
  /-- its `socket.send` returns -/
  | sent (w : W) (result : Except String Unit)
  /-- its `recv` finds the channel empty and all senders dropped -/
  | hangUp (w : W)

inductive Seen (W : Type) where
  | event (e : Event W)
  | wrote (w : W) (text : String) (result : Except String Unit)
  deriving DecidableEq

/-- The text with which an event calls `write_text`. -/
def Event.writeText {W : Type} : Event W → Option (W × String)
  | .executed _ _ written _ => written
  | _ => none

variable {W : Type} {H : PendingHeap} {p : Profile}

def MaroonRuntime.Holds (fsm : MaroonRuntime W H) (w : W) : Prop :=
  ∃ taskId ∈ fsm.activeTasks.keys, (fsm.activeTasks.lookup taskId).map MaroonTask.writer = some w

section Holds

variable {fsm fsm' : MaroonRuntime W H}

theorem holds_iff {w : W} : fsm.Holds w ↔
    ∃ taskId task, fsm.activeTasks.lookup taskId = some task ∧ task.writer = w := by
  constructor
  · rintro ⟨taskId, _, hwriter⟩
    obtain ⟨task, hlookup, rfl⟩ := Option.map_eq_some_iff.mp hwriter
    exact ⟨taskId, task, hlookup, rfl⟩
  · rintro ⟨taskId, task, hlookup, rfl⟩
    exact ⟨taskId, Finmap.mem_keys.mpr (Finmap.mem_iff.mpr ⟨task, hlookup⟩), by rw [hlookup]; rfl⟩

theorem holds_insert {w : W} {taskId : MaroonTaskId} {task : MaroonTask W}
    {generator : NextTaskIdGenerator} {pending : H.Carrier}
    (h : (⟨generator, pending, fsm.activeTasks.insert taskId task⟩ : MaroonRuntime W H).Holds w) :
    task.writer = w ∨ fsm.Holds w := by
  obtain ⟨id, other, hlookup, hwriter⟩ := holds_iff.mp h
  rw [Table.lookup_insert_ite] at hlookup
  split_ifs at hlookup
  · cases hlookup
    exact Or.inl hwriter
  · exact Or.inr (holds_iff.mpr ⟨id, other, hlookup, hwriter⟩)

theorem holds_of_schedule {w : W} {l : Launch} {ts : LogicalTimeAbsoluteMs} {e : Event W}
    (step : (runtime p W H).step fsm (.schedule w l ts) = some (fsm', [e])) :
    (∃ taskId, e = .scheduled taskId w l ts) ∧ ∀ w', fsm'.Holds w' → w = w' ∨ fsm.Holds w' := by
  have htransition := transition_of_step step
  generalize hevents : [e] = events at htransition
  cases htransition with
  | scheduled _ _ _ next advanced =>
    cases hevents
    exact ⟨⟨_, rfl⟩, fun w' h => holds_insert h⟩

theorem holds_of_iterate {cutoff : LogicalTimeAbsoluteMs} {e : Event W}
    (step : (runtime p W H).step fsm (.iterate cutoff (.ok ())) = some (fsm', [e])) :
    (∀ w, fsm'.Holds w → fsm.Holds w) ∧
      (∀ w text, e.writeText = some (w, text) → fsm'.Holds w) ∧
      ∀ taskId w l ts, e ≠ .scheduled taskId w l ts := by
  have htransition := transition_of_step step
  generalize hevents : [e] = events at htransition
  cases htransition with
  | idle =>
    cases hevents
    exact ⟨fun _ h => h, fun _ _ => nofun, fun _ _ _ _ => nofun⟩
  | finished _ _ t pending task popped due present step =>
    cases hevents
    refine ⟨fun w h => ?_, fun _ _ => nofun, fun _ _ _ _ => nofun⟩
    obtain ⟨id, other, hlookup, hwriter⟩ := holds_iff.mp h
    rw [Table.lookup_erase_ite] at hlookup
    split_ifs at hlookup
    exact holds_iff.mpr ⟨id, other, hlookup, hwriter⟩
  | requeued _ _ t pending task written next popped due present step =>
    cases hevents
    refine ⟨fun w h => ?_, fun w text h => ?_, fun _ _ _ _ => nofun⟩
    · exact (holds_insert h).elim (fun hwriter => holds_iff.mpr ⟨_, _, present, hwriter⟩) id
    · obtain ⟨text', _, heq⟩ := Option.map_eq_some_iff.mp h
      cases heq
      exact holds_iff.mpr ⟨t.taskId, _, Finmap.lookup_insert _, rfl⟩

end Holds

variable [DecidableEq W]

instance (fsm : MaroonRuntime W H) (w : W) : Decidable (fsm.Holds w) :=
  inferInstanceAs (Decidable (∃ taskId ∈ _, _ = _))

namespace Served

def new (W : Type) [DecidableEq W] (H : PendingHeap) : Served W H := ⟨.new W H, none, ∅⟩

def update (s : Served W H) (w : W) (relay : Relay String 100) : Served W H :=
  { s with connections := s.connections.insert w ⟨relay, false⟩ }

/-- The task of the connection, while it runs, takes one step. -/
def relayStep (s : Served W H) (w : W) (f : Relay String 100 → Option (Relay String 100)) :
    Option (Served W H × List (Seen W)) :=
  (s.connections.lookup w).bind fun c =>
    if c.ended then none else (f c.relay).map fun relay => (s.update w relay, [])

def step (p : Profile) (s : Served W H) : Service W → Option (Served W H × List (Seen W))
  | .connect w l ts =>
    if s.writing = none ∧ s.connections.lookup w = none then
      (runtimeStep p s.fsm (.schedule w l ts)).toOption.map fun r =>
        (⟨r.1, none, s.connections.insert w .new⟩, [.event r.2])
    else none
  | .iterate cutoff =>
    if s.writing = none then
      (runtimeStep p s.fsm (.iterate cutoff (.ok ()))).toOption.map fun r =>
        (⟨r.1, r.2.writeText, s.connections⟩, [.event r.2])
    else none
  | .write =>
    s.writing.bind fun (w, text) => (s.connections.lookup w).bind fun c =>
      (c.writeText text).map fun r =>
        (⟨s.fsm, none, s.connections.insert w r.1⟩, [.wrote w text r.2])
  | .receive w => s.relayStep w Relay.receive
  | .sent w _ => s.relayStep w Relay.pass
  | .hangUp w =>
    (s.connections.lookup w).bind fun c =>
      if c.ended = false ∧ c.relay.Idle ∧ ¬ s.fsm.Holds w then
        some ({ s with connections := s.connections.insert w { c with ended := true } }, [])
      else none

end Served

/-- All interleavings of handlers, the executor and the tasks of the connections. -/
def served (p : Profile) (W : Type) [DecidableEq W] (H : PendingHeap) :
    Machine (Served W H) (Service W) (Seen W) where
  step := Served.step p

inductive Serves (p : Profile) (s : Served W H) :
    Service W → Served W H → List (Seen W) → Prop where
  | connected (w : W) (l : Launch) (ts : LogicalTimeAbsoluteMs) (fsm : MaroonRuntime W H)
      (e : Event W) (free : s.writing = none) (fresh : s.connections.lookup w = none)
      (step : (runtime p W H).step s.fsm (.schedule w l ts) = some (fsm, [e])) :
      Serves p s (.connect w l ts) ⟨fsm, none, s.connections.insert w .new⟩ [.event e]
  | iterated (cutoff : LogicalTimeAbsoluteMs) (fsm : MaroonRuntime W H) (e : Event W)
      (free : s.writing = none)
      (step : (runtime p W H).step s.fsm (.iterate cutoff (.ok ())) = some (fsm, [e])) :
      Serves p s (.iterate cutoff) ⟨fsm, e.writeText, s.connections⟩ [.event e]
  | wrote (w : W) (text : String) (relay relay' : Relay String 100)
      (writing : s.writing = some (w, text))
      (open' : s.connections.lookup w = some ⟨relay, false⟩)
      (offered : relay.offer text = some relay') :
      Serves p s .write ⟨s.fsm, none, s.connections.insert w ⟨relay', false⟩⟩
        [.wrote w text (.ok ())]
  | failed (w : W) (text : String) (relay : Relay String 100)
      (writing : s.writing = some (w, text))
      (closed : s.connections.lookup w = some ⟨relay, true⟩) :
      Serves p s .write ⟨s.fsm, none, s.connections⟩ [.wrote w text (.error "channel closed")]
  | relayed (input : Service W) (w : W) (relay relay' : Relay String 100)
      (open' : s.connections.lookup w = some ⟨relay, false⟩)
      (step : input = .receive w ∧ relay.receive = some relay' ∨
        (∃ result, input = .sent w result) ∧ relay.pass = some relay') :
      Serves p s input (s.update w relay') []
  | hungUp (w : W) (relay : Relay String 100)
      (open' : s.connections.lookup w = some ⟨relay, false⟩) (idle : relay.Idle)
      (dropped : ¬ s.fsm.Holds w) :
      Serves p s (.hangUp w) { s with connections := s.connections.insert w ⟨relay, true⟩ } []

theorem relayStep_eq_some {s t : Served W H} {w : W}
    {f : Relay String 100 → Option (Relay String 100)} {out : List (Seen W)}
    (h : s.relayStep w f = some (t, out)) :
    ∃ relay relay', s.connections.lookup w = some ⟨relay, false⟩ ∧ f relay = some relay' ∧
      t = s.update w relay' ∧ out = [] := by
  obtain ⟨⟨relay, ended⟩, hlookup, hstep⟩ := Option.bind_eq_some_iff.mp h
  cases ended with
  | true => cases hstep
  | false =>
    obtain ⟨relay', hrelay, heq⟩ := Option.map_eq_some_iff.mp hstep
    cases heq
    exact ⟨relay, relay', hlookup, hrelay, rfl, rfl⟩

theorem serves_of_step {s t : Served W H} {input : Service W} {out : List (Seen W)}
    (h : (served p W H).step s input = some (t, out)) : Serves p s input t out := by
  have hruntime : ∀ {i : Input W} {r : MaroonRuntime W H × Event W},
      (runtimeStep p s.fsm i).toOption = some r → (runtime p W H).step s.fsm i =
        some (r.1, [r.2]) := fun hstep => Option.map_eq_some_iff.mpr ⟨_, hstep, rfl⟩
  cases input with
  | connect w l ts =>
    simp only [served, Served.step] at h
    split_ifs at h with hfree
    obtain ⟨r, hstep, heq⟩ := Option.map_eq_some_iff.mp h
    cases heq
    exact .connected w l ts r.1 r.2 hfree.1 hfree.2 (hruntime hstep)
  | iterate cutoff =>
    simp only [served, Served.step] at h
    split_ifs at h with hfree
    obtain ⟨r, hstep, heq⟩ := Option.map_eq_some_iff.mp h
    cases heq
    exact .iterated cutoff r.1 r.2 hfree (hruntime hstep)
  | write =>
    obtain ⟨⟨w, text⟩, hwriting, hbind⟩ := Option.bind_eq_some_iff.mp h
    obtain ⟨⟨relay, ended⟩, hlookup, hmap⟩ := Option.bind_eq_some_iff.mp hbind
    obtain ⟨r, hwrite, heq⟩ := Option.map_eq_some_iff.mp hmap
    cases heq
    cases ended with
    | true =>
      cases hwrite
      rw [Table.insert_lookup_self _ hlookup]
      exact .failed w text relay hwriting hlookup
    | false =>
      obtain ⟨relay', hoffer, heq⟩ := Option.map_eq_some_iff.mp hwrite
      cases heq
      exact .wrote w text relay relay' hwriting hlookup hoffer
  | receive w =>
    obtain ⟨relay, relay', hlookup, hstep, rfl, rfl⟩ := relayStep_eq_some h
    exact .relayed _ w relay relay' hlookup (Or.inl ⟨rfl, hstep⟩)
  | sent w result =>
    obtain ⟨relay, relay', hlookup, hstep, rfl, rfl⟩ := relayStep_eq_some h
    exact .relayed _ w relay relay' hlookup (Or.inr ⟨⟨result, rfl⟩, hstep⟩)
  | hangUp w =>
    obtain ⟨⟨relay, ended⟩, hlookup, hstep⟩ := Option.bind_eq_some_iff.mp h
    simp only at hstep
    split_ifs at hstep with hclosing
    obtain ⟨rfl, hidle, hdropped⟩ := hclosing
    cases hstep
    exact .hungUp w relay hlookup hidle hdropped

section Refinement

/-- What an input is to the runtime: its writes are given up on nowhere. -/
def Service.toRuntime : Service W → Option (Input W)
  | .connect w l ts => some (.schedule w l ts)
  | .iterate cutoff => some (.iterate cutoff (.ok ()))
  | _ => none

def Seen.toEvent : Seen W → Option (Event W)
  | .event e => some e
  | .wrote _ _ _ => none

def runtimeInputs (inputs : List (Service W)) : List (Input W) :=
  inputs.filterMap Service.toRuntime

def eventsOf (out : List (Seen W)) : List (Event W) := out.filterMap Seen.toEvent

theorem runtime_of_served {inputs : List (Service W)} {s : Served W H} {out : List (Seen W)}
    (run : (served p W H).run (Served.new W H) inputs = some (s, out)) :
    (runtime p W H).run (MaroonRuntime.new W H) (runtimeInputs inputs) =
      some (s.fsm, eventsOf out) := by
  refine Machine.run_invariant (served p W H) (fun is os t =>
    (runtime p W H).run (MaroonRuntime.new W H) (runtimeInputs is) =
      some (t.fsm, eventsOf os)) rfl ?_ run
  intro is os t i t' o _ inv hstep
  rw [runtimeInputs, List.filterMap_append, eventsOf, List.filterMap_append]
  have hquiet : ∀ {i : Service W}, Service.toRuntime i = none →
      (runtime p W H).run t.fsm ([i].filterMap Service.toRuntime) = some (t.fsm, []) := by
    intro i hi
    rw [List.filterMap_cons_none hi]
    rfl
  cases serves_of_step hstep with
  | connected w l ts fsm e free fresh step =>
    exact Machine.run_append _ inv ((Machine.run_singleton _).mpr step)
  | iterated cutoff fsm e free step =>
    exact Machine.run_append _ inv ((Machine.run_singleton _).mpr step)
  | wrote => exact Machine.run_append _ inv (hquiet rfl)
  | failed => exact Machine.run_append _ inv (hquiet rfl)
  | relayed input w relay relay' _ step =>
    refine Machine.run_append _ inv (hquiet ?_)
    rcases step with ⟨rfl, _⟩ | ⟨⟨_, rfl⟩, _⟩ <;> rfl
  | hungUp => exact Machine.run_append _ inv (hquiet rfl)

end Refinement

section Texts

/-- The text with which an event calls `write_text` of this writer. -/
def Event.textFor (w : W) (e : Event W) : Option String :=
  e.writeText.bind fun written => if written.1 = w then some written.2 else none

/-- The texts that the tasks have called `write_text` of this writer with, in order. -/
def textsOf (w : W) (events : List (Event W)) : List String := events.filterMap (Event.textFor w)

@[simp] theorem textsOf_append (w : W) (xs ys : List (Event W)) :
    textsOf w (xs ++ ys) = textsOf w xs ++ textsOf w ys := List.filterMap_append ..

theorem textsOf_singleton (w : W) (e : Event W) : textsOf w [e] = (e.textFor w).toList := by
  cases h : e.textFor w <;> simp [textsOf, h]

def Served.waitingFor (s : Served W H) (w : W) : List String :=
  (s.writing.bind fun written => if written.1 = w then some written.2 else none).toList

@[simp] theorem waitingFor_free {s : Served W H} (h : s.writing = none) (w : W) :
    s.waitingFor w = [] := by
  simp [Served.waitingFor, h]

end Texts

/-- What holds of the runtime and its connections in every run. -/
structure Kept (events : List (Event W)) (s : Served W H) : Prop where
  content : ∀ w c, s.connections.lookup w = some c →
    textsOf w events = c.relay.content ++ s.waitingFor w
  untold : ∀ w, s.connections.lookup w = none → textsOf w events = [] ∧
    ∀ taskId l ts, Event.scheduled taskId w l ts ∉ events
  held : ∀ w, s.fsm.Holds w → ∃ relay, s.connections.lookup w = some ⟨relay, false⟩
  writing : ∀ w text, s.writing = some (w, text) → s.fsm.Holds w
  closed : ∀ w relay, s.connections.lookup w = some ⟨relay, true⟩ → relay.Idle
  once : ∀ taskId taskId' w l l' ts ts', Event.scheduled taskId w l ts ∈ events →
    Event.scheduled taskId' w l' ts' ∈ events → taskId = taskId'

namespace Kept

variable {events : List (Event W)} {s : Served W H}

theorem initial : Kept ([] : List (Event W)) (Served.new W H) where
  content w c h := by cases h
  untold _ _ := ⟨rfl, fun _ _ _ => List.not_mem_nil⟩
  held w h := by
    obtain ⟨_, _, hlookup, _⟩ := holds_iff.mp h
    cases hlookup
  writing _ _ h := by cases h
  closed _ _ h := by cases h
  once _ _ _ _ _ _ _ h := absurd h List.not_mem_nil

theorem after_connect (k : Kept events s) {w : W} {l : Launch} {ts : LogicalTimeAbsoluteMs}
    {fsm : MaroonRuntime W H} {e : Event W} (free : s.writing = none)
    (fresh : s.connections.lookup w = none)
    (step : (runtime p W H).step s.fsm (.schedule w l ts) = some (fsm, [e])) :
    Kept (events ++ [e]) (⟨fsm, none, s.connections.insert w .new⟩ : Served W H) := by
  obtain ⟨⟨taskId, rfl⟩, hholds⟩ := holds_of_schedule step
  obtain ⟨hsilent, hunknown⟩ := k.untold w fresh
  have htexts : ∀ w', textsOf w' (events ++ [.scheduled taskId w l ts]) = textsOf w' events := by
    simp [textsOf_singleton, Event.textFor, Event.writeText]
  refine ⟨fun w' c h => ?_, fun w' h => ?_, fun w' h => ?_, fun _ _ => nofun,
    fun w' relay h => ?_, fun id id' w' l₁ l₂ ts₁ ts₂ h h' => ?_⟩
  · rw [Table.lookup_insert_ite] at h
    rw [htexts]
    split_ifs at h with hw
    · cases h
      simp [hw, hsilent, Connection.new]
    · simpa [free] using k.content w' c h
  · rw [Table.lookup_insert_ite] at h
    split_ifs at h with hw
    refine ⟨(htexts w').trans (k.untold w' h).1, fun id l' ts' hmem => ?_⟩
    rcases List.mem_append.mp hmem with hold | hnew
    · exact (k.untold w' h).2 _ _ _ hold
    · cases List.mem_singleton.mp hnew
      exact hw rfl
  · rw [Table.lookup_insert_ite]
    by_cases hw : w' = w
    · exact ⟨_, if_pos hw⟩
    · rw [if_neg hw]
      exact k.held w' ((hholds w' h).resolve_left (Ne.symm hw))
  · rw [Table.lookup_insert_ite] at h
    split_ifs at h
    · cases h
    · exact k.closed w' relay h
  · rcases List.mem_append.mp h with hold | hnew <;> rcases List.mem_append.mp h' with hold' | hnew'
    · exact k.once _ _ _ _ _ _ _ hold hold'
    · cases List.mem_singleton.mp hnew'
      exact absurd hold (hunknown _ _ _)
    · cases List.mem_singleton.mp hnew
      exact absurd hold' (hunknown _ _ _)
    · cases List.mem_singleton.mp hnew
      cases List.mem_singleton.mp hnew'
      rfl

theorem after_iterate (k : Kept events s) {cutoff : LogicalTimeAbsoluteMs}
    {fsm : MaroonRuntime W H} {e : Event W} (free : s.writing = none)
    (step : (runtime p W H).step s.fsm (.iterate cutoff (.ok ())) = some (fsm, [e])) :
    Kept (events ++ [e]) (⟨fsm, e.writeText, s.connections⟩ : Served W H) := by
  obtain ⟨hholds, hwrites, hlaunch⟩ := holds_of_iterate step
  have hold : ∀ {taskId w l ts}, Event.scheduled taskId w l ts ∈ events ++ [e] →
      Event.scheduled taskId w l ts ∈ events := fun hmem =>
    (List.mem_append.mp hmem).resolve_right fun hnew =>
      hlaunch _ _ _ _ (List.mem_singleton.mp hnew).symm
  refine ⟨fun w c h => ?_, fun w h => ⟨?_, fun id l ts hmem => ?_⟩,
    fun w h => k.held w (hholds w h), hwrites, k.closed,
    fun id id' w l₁ l₂ ts₁ ts₂ h h' => k.once _ _ _ _ _ _ _ (hold h) (hold h')⟩
  · rw [textsOf_append, textsOf_singleton, k.content w c h, waitingFor_free free, List.append_nil]
    rfl
  · rw [textsOf_append, textsOf_singleton, (k.untold w h).1, List.nil_append]
    cases htext : e.textFor w with
    | none => rfl
    | some text =>
      -- A writer that is written through is connected.
      obtain ⟨⟨w', text'⟩, hwritten, heq⟩ := Option.bind_eq_some_iff.mp htext
      split_ifs at heq with hw
      subst hw
      obtain ⟨relay, hconnected⟩ := k.held _ (hholds _ (hwrites _ _ hwritten))
      rw [hconnected] at h
      cases h
  · exact (k.untold w h).2 _ _ _ (hold hmem)

/-- The connection of a running task is not ended, so its writes succeed. -/
theorem not_failed (k : Kept events s) {w : W} {text : String} {relay : Relay String 100}
    (writing : s.writing = some (w, text)) : s.connections.lookup w ≠ some ⟨relay, true⟩ := by
  intro hclosed
  obtain ⟨relay', hopen⟩ := k.held w (k.writing w text writing)
  rw [hclosed] at hopen
  cases hopen

theorem after_update (k : Kept events s) {w : W} {relay relay' : Relay String 100}
    (open' : s.connections.lookup w = some ⟨relay, false⟩) {writing : Option (W × String)}
    (kept : writing = s.writing ∨ writing = none)
    (content : relay.content ++ s.waitingFor w = relay'.content ++
      (⟨s.fsm, writing, s.connections⟩ : Served W H).waitingFor w)
    (others : ∀ w', w' ≠ w →
      s.waitingFor w' = (⟨s.fsm, writing, s.connections⟩ : Served W H).waitingFor w') :
    Kept events (⟨s.fsm, writing, s.connections.insert w ⟨relay', false⟩⟩ : Served W H) := by
  refine ⟨fun w' c h => ?_, fun w' h => ?_, fun w' h => ?_, fun w' text h => ?_,
    fun w' relay₁ h => ?_, k.once⟩
  · rw [Table.lookup_insert_ite] at h
    split_ifs at h with hw
    · cases h
      subst hw
      exact (k.content w' _ open').trans content
    · exact (k.content w' c h).trans (congrArg _ (others w' hw))
  · rw [Table.lookup_insert_ite] at h
    split_ifs at h
    exact k.untold w' h
  · rw [Table.lookup_insert_ite]
    by_cases hw : w' = w
    · exact ⟨relay', if_pos hw⟩
    · rw [if_neg hw]
      exact k.held w' h
  · rcases kept with rfl | rfl
    · exact k.writing w' text h
    · cases h
  · rw [Table.lookup_insert_ite] at h
    split_ifs at h
    · cases h
    · exact k.closed w' relay₁ h

theorem after_hangUp (k : Kept events s) {w : W} {relay : Relay String 100}
    (open' : s.connections.lookup w = some ⟨relay, false⟩) (idle : relay.Idle)
    (dropped : ¬ s.fsm.Holds w) :
    Kept events ({ s with connections := s.connections.insert w ⟨relay, true⟩ } : Served W H) := by
  refine ⟨fun w' c h => ?_, fun w' h => ?_, fun w' h => ?_, k.writing, fun w' relay' h => ?_,
    k.once⟩
  · rw [Table.lookup_insert_ite] at h
    split_ifs at h with hw
    · cases h
      subst hw
      exact k.content w' ⟨relay, false⟩ open'
    · exact k.content w' c h
  · rw [Table.lookup_insert_ite] at h
    split_ifs at h
    exact k.untold w' h
  · have hw : w' ≠ w := fun heq => dropped (heq ▸ h)
    rw [Table.lookup_insert_ite, if_neg hw]
    exact k.held w' h
  · rw [Table.lookup_insert_ite] at h
    split_ifs at h
    · cases h
      exact idle
    · exact k.closed w' relay' h

end Kept

section Runs

variable {inputs : List (Service W)} {s : Served W H} {out : List (Seen W)}

theorem kept_of_step {events : List (Event W)} {t : Served W H} {input : Service W}
    (k : Kept events s) (h : Serves p s input t out) :
    Kept (events ++ eventsOf out) t ∧ ∀ w text result, .wrote w text result ∈ out →
      result = .ok () := by
  have hquiet : ∀ {u : Served W H}, Kept events u → Kept (events ++ []) u := fun k =>
    (List.append_nil events).symm ▸ k
  cases h with
  | connected w l ts fsm e free fresh step =>
    exact ⟨k.after_connect free fresh step, fun _ _ _ h => by simp at h⟩
  | iterated cutoff fsm e free step =>
    exact ⟨k.after_iterate free step, fun _ _ _ h => by simp at h⟩
  | wrote w text relay relay' writing open' offered =>
    refine ⟨hquiet (k.after_update open' (Or.inr rfl) ?_ fun w' hw => ?_), fun _ _ _ h => ?_⟩
    · simp [Served.waitingFor, writing, Relay.content_offer offered]
    · simp [Served.waitingFor, writing, Ne.symm hw]
    · cases List.mem_singleton.mp h
      rfl
  | failed w text relay writing closed => exact absurd closed (k.not_failed writing)
  | relayed input w relay relay' open' step =>
    refine ⟨hquiet (k.after_update open' (Or.inl rfl) ?_ fun _ _ => rfl), fun _ _ _ h => by cases h⟩
    have hcontent : relay'.content = relay.content :=
      step.elim (fun h => Relay.content_receive h.2) fun h => Relay.content_pass h.2
    rw [hcontent]
  | hungUp w relay open' idle dropped =>
    exact ⟨hquiet (k.after_hangUp open' idle dropped), fun _ _ _ h => by cases h⟩

theorem kept_of_run (run : (served p W H).run (Served.new W H) inputs = some (s, out)) :
    Kept (eventsOf out) s ∧ ∀ w text result, .wrote w text result ∈ out → result = .ok () := by
  refine Machine.run_invariant (served p W H) (fun _ os t => Kept (eventsOf os) t ∧
    ∀ w text result, Seen.wrote w text result ∈ os → result = .ok ())
    ⟨.initial, fun _ _ _ h => absurd h List.not_mem_nil⟩ ?_ run
  intro is os t i t' o _ inv hstep
  obtain ⟨hkept, hnew⟩ := kept_of_step inv.1 (serves_of_step hstep)
  refine ⟨?_, fun w text result h => ?_⟩
  · rw [eventsOf, List.filterMap_append]
    exact hkept
  · exact (List.mem_append.mp h).elim (inv.2 w text result) (hnew w text result)

theorem textsOf_task {events : List (Event W)} {fsm : MaroonRuntime W H}
    (isolated : Isolated p events fsm)
    (once : ∀ taskId taskId' w l l' ts ts', Event.scheduled taskId w l ts ∈ events →
      Event.scheduled taskId' w l' ts' ∈ events → taskId = taskId')
    {taskId : MaroonTaskId} {w : W} {l : Launch} {ts : LogicalTimeAbsoluteMs}
    (launched : Event.scheduled taskId w l ts ∈ events) :
    textsOf w events = (outputsOf taskId events).map (·.2) := by
  have hwriter : ∀ {id w' l' ts' at' v text}, Event.scheduled id w' l' ts' ∈ events →
      (at', v, text) ∈ writesOf id events → v = w' := by
    intro id w' l' ts' at' v text hscheduled hmem
    obtain ⟨_, _, outputs, _, hwrites, _⟩ := isolated.follows _ _ _ _ hscheduled
    rw [hwrites] at hmem
    obtain ⟨output, _, heq⟩ := List.mem_map.mp hmem
    cases heq
    rfl
  rw [outputsOf, writesOf, List.map_filterMap, List.map_filterMap, textsOf]
  refine List.filterMap_congr fun e he => ?_
  rcases e with _ | ⟨id, at', _ | ⟨v, text⟩, done⟩ | _
  · rfl
  · rfl
  · have hmem : (at', v, text) ∈ writesOf id events :=
      List.mem_filterMap.mpr ⟨_, he, by simp [Event.write]⟩
    have hissued : id ∈ issuedIds events := by
      by_contra hnot
      rw [isolated.unissued id hnot] at hmem
      cases hmem
    obtain ⟨e', he', hid⟩ := List.mem_filterMap.mp hissued
    cases e' with
    | executed => cases hid
    | idle => cases hid
    | scheduled id' v' l' ts' =>
      obtain rfl : id' = id := Option.some.inj hid
      obtain rfl := hwriter he' hmem
      by_cases own : v = w
      · subst own
        obtain rfl := once _ _ _ _ _ _ _ he' launched
        simp [Event.textFor, Event.writeText, Event.write]
      · have hne : id' ≠ taskId := by
          rintro rfl
          exact own (hwriter launched hmem)
        simp [Event.textFor, Event.writeText, Event.write, own, hne]
  · rfl

/-- Behind the writers the runtime runs as if its writes were done at once. No `write_text` fails.
What a task has written is what its socket was given, the text in hand, the at most hundred texts in
the channel and the text that the executor waits with, in this order; and a socket is closed behind
a task that is gone, with everything that it has written in its whole life passed on. -/
theorem served_in_order
    (run : (served p W H).run (Served.new W H) inputs = some (s, out))
    (fit : IdsFit p (runtimeInputs inputs)) :
    (runtime p W H).run (MaroonRuntime.new W H) (runtimeInputs inputs) =
      some (s.fsm, eventsOf out) ∧
    (∀ w text result, .wrote w text result ∈ out → result = .ok ()) ∧
    ∀ taskId w l ts, Event.scheduled taskId w l ts ∈ eventsOf out →
      ∃ c, s.connections.lookup w = some c ∧
        (outputsOf taskId (eventsOf out)).map (·.2) =
          c.relay.passed ++ c.relay.hand.toList ++ c.relay.channel.queue ++ s.waitingFor w ∧
        c.relay.channel.queue.length ≤ 100 ∧
        (c.ended = true → taskId ∉ s.fsm.activeTasks ∧
          c.relay.passed = (outputsOf taskId (eventsOf out)).map (·.2) ∧
          (l.Timely p ts → c.relay.passed = (l.writes p ts).map (·.2))) := by
  obtain ⟨k, hwrote⟩ := kept_of_run run
  have hruntime := runtime_of_served run
  refine ⟨hruntime, hwrote, fun taskId w l ts launched => ?_⟩
  have isolated := isolated_of_run hruntime fit
  have htexts := textsOf_task isolated k.once launched
  cases hconnected : s.connections.lookup w with
  | none => exact absurd launched ((k.untold w hconnected).2 _ _ _)
  | some c =>
  have hcontent := htexts.symm.trans (k.content w c hconnected)
  refine ⟨c, rfl, hcontent, c.relay.channel.bounded, fun hended => ?_⟩
  obtain ⟨relay, ended⟩ := c
  obtain rfl : ended = true := hended
  have hidle := k.closed w relay hconnected
  have hfree : s.waitingFor w = [] := by
    rw [Served.waitingFor, Option.toList_eq_nil_iff, Option.bind_eq_none_iff]
    rintro ⟨w', text⟩ hwriting
    refine if_neg fun heq => ?_
    subst heq
    exact k.not_failed hwriting hconnected
  have hgone : taskId ∉ s.fsm.activeTasks := by
    intro hactive
    obtain ⟨_, cur, _, _, hwrites, hcur⟩ := isolated.follows _ _ _ _ launched
    cases cur with
    | none => exact ((consistent_of_run hruntime fit).not_mem_of_done hcur).1 hactive
    | some cur =>
      obtain ⟨description, hlookup⟩ := hcur.active
      obtain ⟨relay', hopen⟩ := k.held w (holds_iff.mpr ⟨taskId, _, hlookup, rfl⟩)
      rw [hconnected] at hopen
      cases hopen
  have hpassed : relay.passed = (outputsOf taskId (eventsOf out)).map (·.2) := by
    rw [hcontent, Relay.content_idle hidle, hfree, List.append_nil]
  refine ⟨hgone, hpassed, fun timely => hpassed.trans ?_⟩
  obtain ⟨heap, htrail⟩ := timely.trail
  rw [(htrail.in_runtime hruntime fit launched).2.1 hgone]

def delayedMessageService : List (Service String) :=
  [.connect "socket" (.delay 5 "hi") 3, .iterate 10, .iterate 10, .write, .iterate 10,
    .receive "socket", .sent "socket" (.error "broken pipe"), .hangUp "socket"]

theorem delayed_message_served : ∃ s out,
    (served ⟨true, true⟩ String .list).run (Served.new String .list) delayedMessageService =
      some (s, out) ∧
    ∃ c, s.connections.lookup "socket" = some c ∧ c.ended = true ∧ c.relay.passed = ["hi"] := by
  have hrun : ((served ⟨true, true⟩ String .list).run (Served.new String .list)
      delayedMessageService).map (fun r => (r.2.head?,
        (r.1.connections.lookup "socket").map Connection.ended)) =
      some (some (.event (.scheduled 1 "socket" (.delay 5 "hi") 3)), some true) := by
    decide +kernel
  obtain ⟨⟨s, out⟩, run, heq⟩ := Option.map_eq_some_iff.mp hrun
  obtain ⟨hhead, hended⟩ := Prod.mk.inj heq
  have launched : Event.scheduled 1 "socket" (.delay 5 "hi") 3 ∈ eventsOf out :=
    List.mem_filterMap.mpr ⟨_, List.mem_of_mem_head? hhead, rfl⟩
  obtain ⟨_, _, htasks⟩ := served_in_order run fun h => by cases h
  obtain ⟨c, hlookup, _, _, hclosed⟩ := htasks _ _ _ _ launched
  have hend : c.ended = true := by simpa [hlookup] using hended
  exact ⟨s, out, run, c, hlookup, hend, (hclosed hend).2.2 (by decide)⟩

end Runs

section Stalled

/-- While the executor waits for a full channel and the task of its connection for the socket,
nothing happens but steps of other connections. -/
theorem stalled_step {s t : Served W H} {input : Service W} {out : List (Seen W)} {w : W}
    {text : String} {c : Connection} (writing : s.writing = some (w, text))
    (connected : s.connections.lookup w = some c) (busy : c.relay.hand ≠ none)
    (full : c.relay.channel.queue.length = 100) (open' : c.ended = false)
    (stalled : ∀ result, input ≠ .sent w result) (h : Serves p s input t out) :
    out = [] ∧ t.fsm = s.fsm ∧ t.writing = s.writing ∧ t.connections.lookup w = some c := by
  obtain ⟨relay, ended⟩ := c
  obtain rfl : ended = false := open'
  cases h with
  | connected w' l ts fsm e free =>
    rw [writing] at free
    cases free
  | iterated cutoff fsm e free =>
    rw [writing] at free
    cases free
  | wrote w' text' relay₁ relay₂ writing' open₁ offered =>
    rw [writing] at writing'
    cases writing'
    rw [connected] at open₁
    cases open₁
    have hroom := (Relay.offer_isSome relay text).mp (by rw [offered]; rfl)
    exact absurd full (Nat.ne_of_lt hroom)
  | failed w' text' relay₁ writing' closed =>
    rw [writing] at writing'
    cases writing'
    rw [connected] at closed
    cases closed
  | relayed _ w' relay₁ relay₂ open₁ step =>
    have hother : w ≠ w' := by
      rintro rfl
      rw [connected] at open₁
      cases open₁
      rcases step with ⟨_, hreceive⟩ | ⟨⟨result, heq⟩, _⟩
      · rw [Relay.receive_busy busy] at hreceive
        cases hreceive
      · exact stalled result heq
    exact ⟨rfl, rfl, rfl, by rw [Served.update, Table.lookup_insert_ite, if_neg hother, connected]⟩
  | hungUp w' relay₁ open₁ idle =>
    have hother : w ≠ w' := by
      rintro rfl
      rw [connected] at open₁
      cases open₁
      exact busy idle.1
    exact ⟨rfl, rfl, rfl, by rw [Table.lookup_insert_ite, if_neg hother, connected]⟩

theorem stalled_run {s t : Served W H} {inputs : List (Service W)} {out : List (Seen W)} {w : W}
    {text : String} {c : Connection} (writing : s.writing = some (w, text))
    (connected : s.connections.lookup w = some c) (busy : c.relay.hand ≠ none)
    (full : c.relay.channel.queue.length = 100) (open' : c.ended = false)
    (stalled : ∀ result, .sent w result ∉ inputs)
    (run : (served p W H).run s inputs = some (t, out)) :
    out = [] ∧ t.fsm = s.fsm ∧ t.writing = s.writing ∧ t.connections.lookup w = some c := by
  refine Machine.run_invariant (served p W H) (fun is os u =>
    (∀ result, Service.sent w result ∉ is) → os = [] ∧ u.fsm = s.fsm ∧ u.writing = s.writing ∧
      u.connections.lookup w = some c) (fun _ => ⟨rfl, rfl, rfl, connected⟩) ?_ run stalled
  intro is os u i u' o _ inv hstep stalled
  obtain ⟨rfl, hfsm, hwriting, hconnected⟩ :=
    inv fun result h => stalled result (List.mem_append_left _ h)
  obtain ⟨rfl, hfsm', hwriting', hconnected'⟩ := stalled_step (hwriting.trans writing) hconnected
    busy full open' (fun result heq => stalled result (by simp [heq])) (serves_of_step hstep)
  exact ⟨rfl, hfsm'.trans hfsm, hwriting'.trans hwriting, hconnected'⟩

theorem step_write {s : Served W H} {w : W} {text : String} {relay : Relay String 100}
    (writing : s.writing = some (w, text))
    (connected : s.connections.lookup w = some ⟨relay, false⟩)
    (room : relay.channel.queue.length < 100) :
    ∃ t, (served p W H).step s .write = some (t, [.wrote w text (.ok ())]) ∧ t.fsm = s.fsm ∧
      t.writing = none := by
  obtain ⟨relay', hoffer⟩ := Option.isSome_iff_exists.mp ((Relay.offer_isSome relay text).mpr room)
  refine ⟨⟨s.fsm, none, s.connections.insert w ⟨relay', false⟩⟩, ?_, rfl, rfl⟩
  simp [served, Served.step, writing, connected, Connection.writeText, hoffer]

theorem step_relay {s : Served W H} {w : W} {relay relay' : Relay String 100}
    (connected : s.connections.lookup w = some ⟨relay, false⟩)
    {f : Relay String 100 → Option (Relay String 100)} (step : f relay = some relay') :
    s.relayStep w f = some (s.update w relay', []) := by
  simp [Served.relayStep, connected, step]

/-- A waiting write needs at most two steps of the task of its connection. -/
theorem write_goes_through {events : List (Event W)} {s : Served W H} (k : Kept events s) {w : W}
    {text : String} (writing : s.writing = some (w, text)) :
    ∃ steps t, steps.length ≤ 2 ∧
      (∀ i ∈ steps, i = .receive w ∨ i = .sent w (.ok ())) ∧
      (served p W H).run s (steps ++ [.write]) = some (t, [.wrote w text (.ok ())]) ∧
      t.fsm = s.fsm ∧ t.writing = none := by
  obtain ⟨relay, hconnected⟩ := k.held w (k.writing w text writing)
  have hlookup : ∀ (u : Served W H) (r : Relay String 100),
      (u.update w r).connections.lookup w = some ⟨r, false⟩ := fun u r => Finmap.lookup_insert _
  rcases relay.room_soon (by decide) with hroom | ⟨r₁, h₁, hroom⟩ | ⟨r₁, r₂, h₁, h₂, hroom⟩
  · obtain ⟨t, hwrite, hfsm, hfree⟩ := step_write (p := p) writing hconnected hroom
    exact ⟨[], t, Nat.zero_le 2, fun _ h => absurd h List.not_mem_nil,
      (Machine.run_singleton _).mpr hwrite, hfsm, hfree⟩
  · have hreceive : (served p W H).step s (.receive w) = some (s.update w r₁, []) :=
      step_relay hconnected h₁
    obtain ⟨t, hwrite, hfsm, hfree⟩ :=
      step_write (p := p) (s := s.update w r₁) writing (hlookup s r₁) hroom
    refine ⟨[.receive w], t, Nat.le_succ 1, fun i hi => Or.inl (List.mem_singleton.mp hi), ?_,
      hfsm, hfree⟩
    exact Machine.run_append _ ((Machine.run_singleton _).mpr hreceive)
      ((Machine.run_singleton _).mpr hwrite)
  · have hsent : (served p W H).step s (.sent w (.ok ())) = some (s.update w r₁, []) :=
      step_relay hconnected h₁
    have hreceive : (served p W H).step (s.update w r₁) (.receive w) =
        some ((s.update w r₁).update w r₂, []) := step_relay (hlookup s r₁) h₂
    obtain ⟨t, hwrite, hfsm, hfree⟩ :=
      step_write (p := p) (s := (s.update w r₁).update w r₂) writing (hlookup _ r₂) hroom
    refine ⟨[.sent w (.ok ()), .receive w], t, le_refl 2, fun i hi => ?_, ?_, hfsm, hfree⟩
    · rcases List.mem_cons.mp hi with rfl | hi
      · exact Or.inr rfl
      · exact Or.inl (List.mem_singleton.mp hi)
    · exact (Machine.run_cons_iff _).mpr ⟨_, _, _, hsent, Machine.run_append _
        ((Machine.run_singleton _).mpr hreceive) ((Machine.run_singleton _).mpr hwrite), rfl⟩

/-- The executor holds the mutex of the runtime while it waits in `write_text`. In any reachable
state at most two steps of the task of that one connection let it go on. But while the socket of
that connection does not take the text in hand and its channel is full, nothing happens in the
runtime: no task is launched and none is stepped, whatever the other clients do. -/
theorem stalled_client_stops_all {inputs : List (Service W)} {s : Served W H} {out : List (Seen W)}
    (run : (served p W H).run (Served.new W H) inputs = some (s, out)) {w : W} {text : String}
    (writing : s.writing = some (w, text)) :
    (∃ steps t, steps.length ≤ 2 ∧ (∀ i ∈ steps, i = .receive w ∨ i = .sent w (.ok ())) ∧
      (served p W H).run s (steps ++ [.write]) = some (t, [.wrote w text (.ok ())]) ∧
      t.fsm = s.fsm ∧ t.writing = none) ∧
    ∀ c, s.connections.lookup w = some c → c.relay.hand ≠ none →
      c.relay.channel.queue.length = 100 → ∀ more t seen,
        (served p W H).run s more = some (t, seen) → (∀ result, .sent w result ∉ more) →
        seen = [] ∧ t.fsm = s.fsm ∧ t.writing = s.writing := by
  have k := (kept_of_run run).1
  refine ⟨write_goes_through k writing, fun c connected busy full more t seen hmore stalled => ?_⟩
  obtain ⟨relay, ended⟩ := c
  cases ended with
  | true => exact absurd connected (k.not_failed writing)
  | false =>
    obtain ⟨hseen, hfsm, hwriting, _⟩ := stalled_run writing connected busy full rfl stalled hmore
    exact ⟨hseen, hfsm, hwriting⟩

def stalledService : List (Service String) :=
  let turn : List (Service String) := [.iterate 100000, .iterate 100000, .write]
  [.connect "socket" (.fibonacci 200) 0] ++ turn ++ [.receive "socket"] ++
    (List.replicate 100 turn).flatten ++ [.iterate 100000, .iterate 100000]

set_option maxRecDepth 10000 in
theorem fibonacci_stalls_all : ∃ s out text,
    (served ⟨false, false⟩ String .list).run (Served.new String .list) stalledService =
      some (s, out) ∧
    s.writing = some ("socket", text) ∧
    ∀ more t seen, (served ⟨false, false⟩ String .list).run s more = some (t, seen) →
      (∀ result, .sent "socket" result ∉ more) → seen = [] ∧ t.fsm = s.fsm := by
  have hrun : ((served ⟨false, false⟩ String .list).run (Served.new String .list)
      stalledService).map (fun r => (r.1.writing.map Prod.fst,
        (r.1.connections.lookup "socket").map fun c =>
          (c.relay.hand.isSome, c.relay.channel.queue.length))) =
      some (some "socket", some (true, 100)) := by
    decide +kernel
  obtain ⟨⟨s, out⟩, run, heq⟩ := Option.map_eq_some_iff.mp hrun
  obtain ⟨hwriter, hconnection⟩ := Prod.mk.inj heq
  obtain ⟨⟨w, text⟩, hwriting, rfl⟩ := Option.map_eq_some_iff.mp hwriter
  obtain ⟨c, hconnected, hfull⟩ := Option.map_eq_some_iff.mp hconnection
  obtain ⟨hbusy, hlength⟩ := Prod.mk.inj hfull
  refine ⟨s, out, text, run, hwriting, fun more t seen hmore stalled => ?_⟩
  obtain ⟨_, hstalls⟩ := stalled_client_stops_all run hwriting
  obtain ⟨hseen, hfsm, _⟩ := hstalls c hconnected (Option.isSome_iff_ne_none.mp hbusy) hlength
    more t seen hmore stalled
  exact ⟨hseen, hfsm⟩

end Stalled

end RustExperiments.Maroon
