/- module: RustExperiments/Ticker/Broadcast
   digest: The clock that is broadcast to WebSocket clients: what each client is sent, and when. -/

import Mathlib.Data.List.Forall2
import RustExperiments.Lib.Machine
import RustExperiments.Lib.Table
import RustExperiments.Lib.Watch

set_option autoImplicit false
set_option relaxedAutoImplicit false

namespace RustExperiments.Ticker

open RustExperiments.Lib

inductive ErrorKind where
  | brokenPipe
  | other
  deriving DecidableEq, Repr

/-- The error of a `socket.send`: an I/O error, another one, or one with a `source`. -/
inductive WsError where
  | io (kind : ErrorKind)
  | other
  | caused (source : WsError)
  deriving DecidableEq, Repr

/-- `while err.source().is_some() { err = err.source().unwrap(); }` -/
def WsError.root : WsError → WsError
  | .caused source => source.root
  | e => e

def WsError.brokenPipe (e : WsError) : Bool := e.root = .io .brokenPipe

/-- Where `ws_handler_impl_safe` is in its loop. -/
inductive Stage where
  /-- in `rx.changed().await` -/
  | waiting
  /-- before `rx.borrow().clone()` -/
  | changed
  /-- in `socket.send(..).await` -/
  | sending (s : String)
  deriving DecidableEq, Repr

structure Client where
  seen : ℕ
  stage : Stage
  deriving DecidableEq, Repr

/-- The watched channel, and the handlers that hold a receiver of it. -/
structure Server where
  watch : Watch String
  clients : Table ℕ Client
  next : ℕ

inductive Input where
  /-- the ticker sends the time -/
  | tick (now : String)
  /-- a client is upgraded and subscribes -/
  | subscribe
  | changed (id : ℕ)
  | borrow (id : ℕ)
  | sent (id : ℕ) (result : Except WsError Unit)

inductive Event where
  | stored (now : String)
  | subscribed (id start : ℕ)
  | delivered (id : ℕ) (s : String)
  /-- the handler ended, and printed its error or not -/
  | ended (id : ℕ) (printed : Bool)
  deriving DecidableEq, Repr

def startingUp : String := "ws starting up ..."

def Server.new : Server := ⟨⟨startingUp, 0⟩, ∅, 0⟩

def Server.set (server : Server) (id : ℕ) (client : Client) : Server :=
  { server with clients := server.clients.insert id client }

def step (server : Server) : Input → Option (Server × List Event)
  | .tick now =>
    -- `let _ = tx.send(now)`: without a client the time is lost.
    some ({ server with watch := server.watch.send server.clients.keys.card now },
      if server.clients.keys.card = 0 then [] else [.stored now])
  | .subscribe =>
    some ({ server with
        clients := server.clients.insert server.next ⟨server.watch.subscribe, .waiting⟩
        next := server.next + 1 },
      [.subscribed server.next server.watch.subscribe])
  | .changed id =>
    (server.clients.lookup id).bind fun client =>
      match client.stage with
      | .waiting => (server.watch.changed client.seen).map fun seen =>
          (server.set id ⟨seen, .changed⟩, [])
      | _ => none
  | .borrow id =>
    (server.clients.lookup id).bind fun client =>
      match client.stage with
      | .changed => some (server.set id ⟨client.seen, .sending server.watch.value⟩, [])
      | _ => none
  | .sent id result =>
    (server.clients.lookup id).bind fun client =>
      match client.stage, result with
      | .sending s, .ok () => some (server.set id ⟨client.seen, .waiting⟩, [.delivered id s])
      | .sending _, .error e =>
        some ({ server with clients := server.clients.erase id }, [.ended id (!e.brokenPipe)])
      | _, _ => none

/-- The ticker and any number of handlers, in any interleaving. -/
def ticker : Machine Server Input Event where
  step := step

inductive Steps (server : Server) : Input → Server → List Event → Prop where
  | lost (now : String) (none' : server.clients.keys.card = 0) :
      Steps server (.tick now) server []
  | stored (now : String) (some' : server.clients.keys.card ≠ 0) :
      Steps server (.tick now)
        { server with watch := server.watch.send server.clients.keys.card now } [.stored now]
  | subscribed :
      Steps server .subscribe
        { server with
          clients := server.clients.insert server.next ⟨server.watch.version, .waiting⟩
          next := server.next + 1 }
        [.subscribed server.next server.watch.version]
  | changed (id seen : ℕ) (there : server.clients.lookup id = some ⟨seen, .waiting⟩)
      (new : server.watch.version ≠ seen) :
      Steps server (.changed id) (server.set id ⟨server.watch.version, .changed⟩) []
  | borrowed (id seen : ℕ) (there : server.clients.lookup id = some ⟨seen, .changed⟩) :
      Steps server (.borrow id) (server.set id ⟨seen, .sending server.watch.value⟩) []
  | delivered (id seen : ℕ) (s : String)
      (there : server.clients.lookup id = some ⟨seen, .sending s⟩) :
      Steps server (.sent id (.ok ())) (server.set id ⟨seen, .waiting⟩) [.delivered id s]
  | ended (id seen : ℕ) (s : String) (e : WsError)
      (there : server.clients.lookup id = some ⟨seen, .sending s⟩) :
      Steps server (.sent id (.error e)) { server with clients := server.clients.erase id }
        [.ended id (!e.brokenPipe)]

theorem steps_of_step {server server' : Server} {input : Input} {events : List Event}
    (h : ticker.step server input = some (server', events)) :
    Steps server input server' events := by
  cases input with
  | tick now =>
    by_cases hnone : server.clients.keys.card = 0
    · have heq : server.watch.send server.clients.keys.card now = server.watch := if_pos hnone
      simp only [ticker, step, heq, if_pos hnone, Option.some.injEq, Prod.mk.injEq] at h
      obtain ⟨rfl, rfl⟩ := h
      exact .lost now hnone
    · simp only [ticker, step, if_neg hnone, Option.some.injEq, Prod.mk.injEq] at h
      obtain ⟨rfl, rfl⟩ := h
      exact .stored now hnone
  | subscribe =>
    cases h
    exact .subscribed
  | changed id =>
    obtain ⟨⟨seen, stage⟩, hthere, hstep⟩ := Option.bind_eq_some_iff.mp h
    cases stage with
    | waiting =>
      obtain ⟨now, hchanged, heq⟩ := Option.map_eq_some_iff.mp hstep
      cases heq
      obtain ⟨rfl, hnew⟩ := Watch.changed_eq_some hchanged
      exact .changed id seen hthere hnew
    | changed => cases hstep
    | sending s => cases hstep
  | borrow id =>
    obtain ⟨⟨seen, stage⟩, hthere, hstep⟩ := Option.bind_eq_some_iff.mp h
    cases stage with
    | waiting => cases hstep
    | changed =>
      cases hstep
      exact .borrowed id seen hthere
    | sending s => cases hstep
  | sent id result =>
    obtain ⟨⟨seen, stage⟩, hthere, hstep⟩ := Option.bind_eq_some_iff.mp h
    cases stage with
    | waiting => cases hstep
    | changed => cases hstep
    | sending s =>
      cases result with
      | ok _ =>
        cases hstep
        exact .delivered id seen s hthere
      | error e =>
        cases hstep
        exact .ended id seen s e hthere

section History

def Event.value : Event → Option String
  | .stored now => some now
  | _ => none

/-- The values of all versions of the channel. -/
def history (events : List Event) : List String := startingUp :: events.filterMap Event.value

def Event.deliveredTo (id : ℕ) : Event → Option String
  | .delivered id' s => if id' = id then some s else none
  | _ => none

def deliveriesTo (id : ℕ) (events : List Event) : List String :=
  events.filterMap (Event.deliveredTo id)

@[simp] theorem history_append (xs ys : List Event) :
    history (xs ++ ys) = history xs ++ ys.filterMap Event.value := by
  simp [history]

@[simp] theorem deliveriesTo_append (id : ℕ) (xs ys : List Event) :
    deliveriesTo id (xs ++ ys) = deliveriesTo id xs ++ deliveriesTo id ys :=
  List.filterMap_append ..

def Shows (events : List Event) (texts : List String) (reads : List Read) : Prop :=
  List.Forall₂ (fun text r => (history events)[r.got]? = some text) texts reads

theorem Shows.append {events more : List Event} {texts : List String} {reads : List Read}
    (h : Shows events texts reads) : Shows (events ++ more) texts reads := by
  refine h.imp fun text r heq => ?_
  obtain ⟨hlt, _⟩ := List.getElem?_eq_some_iff.mp heq
  rw [history_append, List.getElem?_append_left hlt, heq]

end History

section Clients

/-- Where a client is, that subscribed at `start` and was delivered the values of `reads`. -/
inductive Reached (events : List Event) (version start : ℕ) (reads : List Read) :
    Client → Prop where
  | waiting (seen : ℕ) (le : seen ≤ version) (earlier : ∀ r ∈ reads, r.seen ≤ seen)
      (last : reads = [] ∧ seen = start ∨ start < seen ∧ ∃ got, reads.getLast? = some ⟨seen, got⟩) :
      Reached events version start reads ⟨seen, .waiting⟩
  | changed (seen : ℕ) (after : start < seen) (le : seen ≤ version)
      (earlier : ∀ r ∈ reads, r.seen < seen ∧ r.got ≤ seen) :
      Reached events version start reads ⟨seen, .changed⟩
  | sending (seen got : ℕ) (s : String) (after : start < seen) (within : seen ≤ got)
      (le : got ≤ version) (value : (history events)[got]? = some s)
      (earlier : ∀ r ∈ reads, r.seen < seen ∧ r.got ≤ seen) :
      Reached events version start reads ⟨seen, .sending s⟩

theorem Reached.later {events more : List Event} {version version' start : ℕ} {reads : List Read}
    {client : Client} (h : Reached events version start reads client) (le : version ≤ version') :
    Reached (events ++ more) version' start reads client := by
  cases h with
  | waiting seen hle earlier last => exact .waiting seen (hle.trans le) earlier last
  | changed seen after hle earlier => exact .changed seen after (hle.trans le) earlier
  | sending seen got s after within hle value earlier =>
    refine .sending seen got s after within (hle.trans le) ?_ earlier
    obtain ⟨hlt, _⟩ := List.getElem?_eq_some_iff.mp value
    rw [history_append, List.getElem?_append_left hlt, value]

def Following (events : List Event) (server : Server) (id start : ℕ) : Prop :=
  ∃ reads, Reads start reads ∧ Shows events (deliveriesTo id events) reads ∧
    (∀ r ∈ reads, r.got ≤ server.watch.version) ∧
    ∀ client, server.clients.lookup id = some client →
      Reached events server.watch.version start reads client

/-- What holds in every run. -/
structure Kept (events : List Event) (server : Server) : Prop where
  told : server.watch.Told (history events)
  unborn : ∀ id, server.next ≤ id → deliveriesTo id events = [] ∧
    (∀ start, Event.subscribed id start ∉ events) ∧ server.clients.lookup id = none
  following : ∀ id start, Event.subscribed id start ∈ events → Following events server id start

theorem Following.other {events more : List Event} {server server' : Server} {id start : ℕ}
    (h : Following events server id start) (silent : deliveriesTo id more = [])
    (le : server.watch.version ≤ server'.watch.version)
    (same : ∀ client, server'.clients.lookup id = some client →
      server.clients.lookup id = some client) : Following (events ++ more) server' id start := by
  obtain ⟨reads, hreads, hshows, hbound, hreached⟩ := h
  refine ⟨reads, hreads, ?_, fun r hr => (hbound r hr).trans le, fun client hclient =>
    (hreached client (same client hclient)).later le⟩
  rw [deliveriesTo_append, silent, List.append_nil]
  exact hshows.append

variable {events : List Event} {server : Server}

theorem Kept.initial : Kept [] Server.new where
  told := ⟨rfl, rfl⟩
  unborn _ _ := ⟨rfl, fun _ => List.not_mem_nil, rfl⟩
  following _ _ h := absurd h List.not_mem_nil

theorem Kept.born (k : Kept events server) {id : ℕ} {client : Client}
    (there : server.clients.lookup id = some client) : id < server.next := by
  by_contra h
  rw [(k.unborn id (Nat.not_lt.mp h)).2.2] at there
  cases there

theorem Kept.client_step (k : Kept events server) {id : ℕ} {client client' : Client}
    (there : server.clients.lookup id = some client) {e : List Event}
    (stores : e.filterMap Event.value = []) (silent : ∀ id', id' ≠ id → deliveriesTo id' e = [])
    (quiet : ∀ id' start, Event.subscribed id' start ∉ e)
    (own : ∀ start, Following events server id start →
      Following (events ++ e) (server.set id client') id start) :
    Kept (events ++ e) (server.set id client') := by
  have hborn := k.born there
  refine ⟨?_, fun id' hid => ?_, fun id' start hmem => ?_⟩
  · rw [history_append, stores, List.append_nil]
    exact k.told
  · have hne : id' ≠ id := fun heq => absurd (heq ▸ hid) (Nat.not_le.mpr hborn)
    obtain ⟨hsilent, hnone, hlookup⟩ := k.unborn id' hid
    refine ⟨by rw [deliveriesTo_append, hsilent, silent id' hne]; rfl, fun start hmem => ?_, ?_⟩
    · exact (List.mem_append.mp hmem).elim (hnone start) (quiet id' start)
    · rw [Server.set, Table.lookup_insert_ite, if_neg hne, hlookup]
  · have hold := (List.mem_append.mp hmem).resolve_right (quiet id' start)
    by_cases hid : id' = id
    · subst hid
      exact own start (k.following id' start hold)
    · refine (k.following id' start hold).other (silent id' hid) (le_refl _) fun c hc => ?_
      rwa [Server.set, Table.lookup_insert_ite, if_neg hid] at hc

theorem set_lookup {server : Server} {id : ℕ} {client c : Client}
    (h : (server.set id client).clients.lookup id = some c) : c = client := by
  rw [Server.set, Finmap.lookup_insert] at h
  exact (Option.some.inj h).symm

/-- The version that a client has just been told of is newer than all it has read. -/
theorem Kept.changed (k : Kept events server) {id seen : ℕ}
    (there : server.clients.lookup id = some ⟨seen, .waiting⟩) (new : server.watch.version ≠ seen) :
    Kept (events ++ []) (server.set id ⟨server.watch.version, .changed⟩) := by
  refine k.client_step there rfl (fun _ _ => rfl) (fun _ _ => List.not_mem_nil) fun start h => ?_
  obtain ⟨reads, hreads, hshows, hbound, hreached⟩ := h
  refine ⟨reads, hreads, by simpa using hshows, hbound, fun c hc => ?_⟩
  rw [set_lookup hc, List.append_nil]
  cases hreached _ there with
  | waiting _ hle earlier last =>
    have hlt : seen < server.watch.version := lt_of_le_of_ne hle (Ne.symm new)
    have hstart : start ≤ seen := last.elim (fun h => h.2.ge) fun h => h.1.le
    exact .changed _ (hstart.trans_lt hlt) (le_refl _) fun r hr =>
      ⟨(earlier r hr).trans_lt hlt, hbound r hr⟩

theorem Kept.borrowed (k : Kept events server) {id seen : ℕ}
    (there : server.clients.lookup id = some ⟨seen, .changed⟩) :
    Kept (events ++ []) (server.set id ⟨seen, .sending server.watch.value⟩) := by
  refine k.client_step there rfl (fun _ _ => rfl) (fun _ _ => List.not_mem_nil) fun start h => ?_
  obtain ⟨reads, hreads, hshows, hbound, hreached⟩ := h
  refine ⟨reads, hreads, by simpa using hshows, hbound, fun c hc => ?_⟩
  rw [set_lookup hc, List.append_nil]
  cases hreached _ there with
  | changed _ after hle earlier =>
    exact .sending seen server.watch.version _ after hle (le_refl _) k.told.last earlier

theorem Kept.delivered (k : Kept events server) {id seen : ℕ} {s : String}
    (there : server.clients.lookup id = some ⟨seen, .sending s⟩) :
    Kept (events ++ [.delivered id s]) (server.set id ⟨seen, .waiting⟩) := by
  refine k.client_step there rfl (fun id' hid => ?_) (fun _ _ => by simp) fun start h => ?_
  · simp [deliveriesTo, Event.deliveredTo, Ne.symm hid]
  obtain ⟨reads, hreads, hshows, hbound, hreached⟩ := h
  cases hreached _ there with
  | sending _ got _ after within hle value earlier =>
    have hnow : deliveriesTo id [.delivered id s] = [s] := by
      simp [deliveriesTo, Event.deliveredTo]
    have hvalue : (history (events ++ [.delivered id s]))[got]? = some s := by
      rw [history_append]
      exact (congrArg (·[got]?) (List.append_nil _)).trans value
    refine ⟨reads ++ [⟨seen, got⟩], hreads.snoc after within earlier, ?_, fun r hr => ?_,
      fun c hc => ?_⟩
    · rw [deliveriesTo_append, hnow]
      exact List.rel_append hshows.append (.cons hvalue .nil)
    · rcases List.mem_append.mp hr with hold | hnew
      · exact hbound r hold
      · rw [List.mem_singleton.mp hnew]
        exact hle
    · rw [set_lookup hc]
      refine .waiting seen (within.trans hle) (fun r hr => ?_) (Or.inr ⟨after, got, by simp⟩)
      rcases List.mem_append.mp hr with hold | hnew
      · exact (earlier r hold).1.le
      · rw [List.mem_singleton.mp hnew]

theorem Kept.subscribed (k : Kept events server) :
    Kept (events ++ [.subscribed server.next server.watch.version])
      { server with
        clients := server.clients.insert server.next ⟨server.watch.version, .waiting⟩
        next := server.next + 1 } := by
  obtain ⟨hnothing, hnever, hnone⟩ := k.unborn server.next (le_refl _)
  have hsilent : ∀ id, deliveriesTo id [.subscribed server.next server.watch.version] = [] :=
    fun _ => rfl
  refine ⟨?_, fun id hid => ?_, fun id start hmem => ?_⟩
  · rw [history_append]
    exact (List.append_nil (history events)).symm ▸ k.told
  · have hlt : server.next < id := hid
    obtain ⟨hold, hunborn, hlookup⟩ := k.unborn id hlt.le
    refine ⟨by rw [deliveriesTo_append, hold, hsilent]; rfl, fun start hmem => ?_, ?_⟩
    · rcases List.mem_append.mp hmem with h | h
      · exact hunborn start h
      · cases List.mem_singleton.mp h
        exact lt_irrefl _ hlt
    · show (server.clients.insert _ _).lookup id = none
      rw [Table.lookup_insert_ite, if_neg hlt.ne', hlookup]
  · rcases List.mem_append.mp hmem with h | h
    · have hne : id ≠ server.next := fun heq => hnever start (heq ▸ h)
      refine (k.following id start h).other (hsilent id) (le_refl _) fun c hc => ?_
      rwa [Table.lookup_insert_ite, if_neg hne] at hc
    · cases List.mem_singleton.mp h
      refine ⟨[], .nil _, ?_, fun _ hr => absurd hr List.not_mem_nil, fun c hc => ?_⟩
      · rw [deliveriesTo_append, hnothing, hsilent]
        exact .nil
      · rw [Finmap.lookup_insert] at hc
        cases hc
        exact .waiting _ (le_refl _) (fun _ hr => absurd hr List.not_mem_nil) (Or.inl ⟨rfl, rfl⟩)

theorem Kept.ended (k : Kept events server) {id : ℕ} {printed : Bool} :
    Kept (events ++ [.ended id printed])
      { server with clients := server.clients.erase id } := by
  have hsilent : ∀ id', deliveriesTo id' [.ended id printed] = [] := fun _ => rfl
  have hkeeps : ∀ {id' : ℕ} {c : Client}, (server.clients.erase id).lookup id' = some c →
      server.clients.lookup id' = some c := by
    intro id' c hc
    rw [Table.lookup_erase_ite] at hc
    split_ifs at hc
    exact hc
  refine ⟨?_, fun id' hid => ?_, fun id' start hmem => ?_⟩
  · rw [history_append]
    exact (List.append_nil (history events)).symm ▸ k.told
  · obtain ⟨hold, hunborn, hlookup⟩ := k.unborn id' hid
    refine ⟨by rw [deliveriesTo_append, hold, hsilent]; rfl, fun start hmem => ?_, ?_⟩
    · exact hunborn start (by simpa using hmem)
    · show (server.clients.erase id).lookup id' = none
      rw [Table.lookup_erase_ite, hlookup, ite_self]
  · exact (k.following id' start (by simpa using hmem)).other (hsilent id') (le_refl _)
      fun c hc => hkeeps hc

theorem Kept.stored (k : Kept events server) (now : String)
    (some' : server.clients.keys.card ≠ 0) :
    Kept (events ++ [.stored now])
      { server with watch := server.watch.send server.clients.keys.card now } := by
  have hsilent : ∀ id, deliveriesTo id [.stored now] = [] := fun _ => rfl
  have hversion : server.watch.version ≤
      (server.watch.send server.clients.keys.card now).version := by
    rw [Watch.send, if_neg some']
    exact Nat.le_succ _
  refine ⟨?_, fun id hid => ?_, fun id start hmem => ?_⟩
  · rw [history_append]
    exact k.told.send some' now
  · obtain ⟨hold, hunborn, hlookup⟩ := k.unborn id hid
    refine ⟨by rw [deliveriesTo_append, hold, hsilent]; rfl, fun start hmem => ?_, hlookup⟩
    exact hunborn start (by simpa using hmem)
  · exact (k.following id start (by simpa using hmem)).other (hsilent id) hversion fun _ hc => hc

theorem kept_of_step (k : Kept events server) {server' : Server} {input : Input}
    {more : List Event} (h : Steps server input server' more) : Kept (events ++ more) server' := by
  cases h with
  | lost => exact (List.append_nil events).symm ▸ k
  | stored now some' => exact k.stored now some'
  | subscribed => exact k.subscribed
  | changed id seen there new => exact k.changed there new
  | borrowed id seen there => exact k.borrowed there
  | delivered id seen s there => exact k.delivered there
  | ended => exact k.ended

theorem kept_of_run {inputs : List Input}
    (run : ticker.run Server.new inputs = some (server, events)) : Kept events server :=
  Machine.run_invariant ticker (fun _ es t => Kept es t) .initial
    (fun _ _ _ _ _ _ _ k hstep => kept_of_step k (steps_of_step hstep)) run

theorem Shows.last {texts : List String} {reads : List Read} (h : Shows events texts reads)
    {r : Read} (last : reads.getLast? = some r) :
    ∃ text, texts.getLast? = some text ∧ (history events)[r.got]? = some text := by
  have hreverse := List.rel_reverse h
  rw [List.getLast?_eq_head?_reverse] at last ⊢
  cases hreads : reads.reverse with
  | nil =>
    rw [hreads] at last
    cases last
  | cons r' others =>
    rw [hreads] at hreverse last
    cases last
    cases htexts : texts.reverse with
    | nil =>
      rw [htexts] at hreverse
      cases hreverse
    | cons text others' =>
      rw [htexts] at hreverse
      cases hreverse with
      | cons hvalue _ => exact ⟨text, rfl, hvalue⟩

theorem ticker_single {server server' : Server} {input : Input} {events : List Event}
    (h : ticker.step server input = some (server', events)) : events.length ≤ 1 := by
  cases steps_of_step h <;> simp

theorem start_eq_length {inputs : List Input} {server : Server} {before after : List Event}
    {id start : ℕ}
    (run : ticker.run Server.new inputs =
      some (server, before ++ .subscribed id start :: after)) :
    start = (before.filterMap Event.value).length := by
  obtain ⟨_, input, _, mid, mid', _, hbefore, hstep, _⟩ :=
    Machine.run_split ticker (fun _ _ _ _ h => ticker_single h) run
  have hversion := (kept_of_run hbefore).told.length
  rw [history, List.length_cons] at hversion
  cases steps_of_step hstep with
  | subscribed => exact (Nat.succ.inj hversion).symm

/-- Whatever the ticker and the other clients do, a client is delivered times that were sent after
it subscribed, never goes back to an earlier one, and gets none more than twice. When it has nothing
to do but wait for the next tick, the last time that it was delivered is the present one, unless
there was none since it subscribed. -/
theorem clients_follow_the_clock {inputs : List Input} {server : Server} {events : List Event}
    (run : ticker.run Server.new inputs = some (server, events)) {id start : ℕ}
    (subscribed : .subscribed id start ∈ events) :
    (∃ before after, events = before ++ .subscribed id start :: after ∧
      start = (before.filterMap Event.value).length) ∧
    (∃ versions : List ℕ,
      List.Forall₂ (fun text v => (history events)[v]? = some text) (deliveriesTo id events)
        versions ∧
      (∀ v ∈ versions, start < v) ∧ versions.Pairwise (· ≤ ·) ∧ ∀ v, versions.count v ≤ 2) ∧
    ∀ seen, server.clients.lookup id = some ⟨seen, .waiting⟩ →
      server.watch.changed seen = none →
      (history events).getLast? = some server.watch.value ∧
      (deliveriesTo id events).getLast? =
        if server.watch.version = start then none else some server.watch.value := by
  have k := kept_of_run run
  obtain ⟨reads, hreads, hshows, hbound, hreached⟩ := k.following id start subscribed
  refine ⟨?_, ⟨reads.map Read.got, List.forall₂_map_right_iff.mpr hshows, hreads.fresh,
    hreads.sorted, hreads.at_most_twice⟩, fun seen there quiet => ⟨?_, ?_⟩⟩
  · obtain ⟨before, after, rfl⟩ := List.append_of_mem subscribed
    exact ⟨before, after, rfl, start_eq_length run⟩
  · rw [List.getLast?_eq_getElem?, k.told.length]
    exact k.told.last
  · have hseen : server.watch.version = seen := by
      by_contra hne
      rw [Watch.changed, if_neg hne] at quiet
      cases quiet
    cases hreached _ there with
    | waiting _ hle earlier last =>
      rcases last with ⟨rfl, rfl⟩ | ⟨hafter, got, hlast⟩
      · have hnone : deliveriesTo id events = [] := List.forall₂_nil_right_iff.mp hshows
        rw [if_pos hseen, hnone]
        rfl
      · -- It was told of the present version, so it has read nothing older.
        have hmem := List.mem_of_getLast? hlast
        have hgot : got = server.watch.version :=
          (hbound _ hmem).antisymm (hseen.trans_le (hreads.within _ hmem).2)
        obtain ⟨text, htext, hvalue⟩ := hshows.last hlast
        rw [if_neg (by omega), htext, ← k.told.last, ← hgot, hvalue]

def twiceInputs : List Input :=
  [.tick "12:00:00", .subscribe, .tick "12:00:01", .changed 0, .tick "12:00:02", .borrow 0,
    .sent 0 (.ok ()), .changed 0, .borrow 0, .sent 0 (.ok ())]

theorem delivered_twice : ∃ server events,
    ticker.run Server.new twiceInputs = some (server, events) ∧
    deliveriesTo 0 events = ["12:00:02", "12:00:02"] ∧
    (deliveriesTo 0 events).getLast? = some server.watch.value := by
  have hrun : (ticker.run Server.new twiceInputs).map (fun r => (r.2, r.1.watch,
      r.1.clients.lookup 0)) =
      some ([.subscribed 0 0, .stored "12:00:01", .stored "12:00:02", .delivered 0 "12:00:02",
        .delivered 0 "12:00:02"], ⟨"12:00:02", 2⟩, some ⟨2, .waiting⟩) := by
    decide
  obtain ⟨⟨server, events⟩, run, heq⟩ := Option.map_eq_some_iff.mp hrun
  obtain ⟨rfl, heq⟩ := Prod.mk.inj heq
  obtain ⟨hwatch, there⟩ := Prod.mk.inj heq
  have subscribed : Event.subscribed 0 0 ∈ [Event.subscribed 0 0, .stored "12:00:01",
      .stored "12:00:02", .delivered 0 "12:00:02", .delivered 0 "12:00:02"] := List.mem_cons_self
  obtain ⟨_, _, hlatest⟩ := clients_follow_the_clock run subscribed
  have hlast := (hlatest 2 there (by rw [hwatch]; rfl)).2
  rw [if_neg (by rw [hwatch]; decide)] at hlast
  exact ⟨server, _, run, by decide, hlast⟩

end Clients

end RustExperiments.Ticker
