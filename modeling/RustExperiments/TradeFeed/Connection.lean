/- module: RustExperiments/TradeFeed/Connection
   digest: The task that keeps the feed connected: its sessions, its pauses, the read loop. -/

import RustExperiments.TradeFeed.Publication

set_option autoImplicit false
set_option relaxedAutoImplicit false

namespace RustExperiments.TradeFeed

open RustExperiments.Lib RustExperiments.Lib.Proc

/-- What becomes of `--ws-subscribe-cmd`. -/
inductive Subscription where
  /-- this text, from the parsed command or from the generic value -/
  | text (s : String)
  /-- it parses, and `serde_json::to_string` fails on it -/
  | unserializable
  | unparsable
  deriving DecidableEq, Repr

structure Setup where
  urlParses : Bool
  redisOpens : Bool
  subscription : Subscription

inductive Incoming where
  | text (s : String)
  | binary
  | ping (data : String)
  | close
  /-- a pong or a raw frame -/
  | other
  | error
  deriving DecidableEq, Repr

/-- Where `ws_task` awaits; `redis` says whether there is a connection to Redis. -/
inductive Phase where
  /-- before `Connecting to WebSocket` -/
  | top
  /-- in `sleep(Duration::from_secs(5))` -/
  | pausing
  | connectingRedis
  | connecting (redis : Bool)
  | subscribing (redis : Bool)
  | reading (redis : Bool)
  /-- with the message in hand it tries to connect to Redis again -/
  | reconnecting (message : Incoming)
  | handling (redis : Bool) (p : Proc Await Answer (Except Stop Unit))
  | ponging (redis : Bool) (data : String)
  /-- a panic has ended the task -/
  | dead

inductive Reply where
  | goOn
  | redis (ok : Bool)
  | webSocket (ok : Bool)
  | sent (ok : Bool)
  | next (message : Option Incoming)
  | answer (env : Env)

inductive Did where
  | opening
  | redis (connected : Bool)
  /-- the WebSocket cannot be connected -/
  | refused
  | opened
  | subscribed (s : String) (ok : Bool)
  /-- a message is taken on, after a try to connect to Redis again that went like this -/
  | took (message : Incoming) (reconnected : Bool)
  | answered (a : Σ q, Answer q)
  | ponged (data : String) (ok : Bool)
  /-- `read.next()` was `None` -/
  | ended
  | slept

variable (serde : SerdeJson) (setup : Setup)

/-- Once `handle_ws_message` has returned the loop reads on; only a panic ends it. -/
def Phase.handled (redis : Bool) : Proc Await Answer (Except Stop Unit) → Phase
  | .ret (.ok _) => .reading redis
  | .ret (.error (.error e)) => .reading (!dropsConnection e && redis)
  | .ret (.error .panic) => .dead
  | p => .handling redis p

/-- `match message_result` -/
def Phase.dispatch (redis : Bool) : Incoming → Phase
  | .text s => .handled redis (handleWsMessage serde s redis).run
  | .binary => .reading redis
  | .ping data => .ponging redis data
  | .close => .pausing
  | .other => .reading redis
  | .error => .pausing

def Phase.opened (redis : Bool) : Phase :=
  match setup.subscription with
  | .text _ => .subscribing redis
  | .unserializable => .top
  | .unparsable => .pausing

variable (checks : Bool)

def feedStep : Phase × FeedStore → Reply → Option ((Phase × FeedStore) × List Did)
  | (.top, s), .goOn =>
    some ((if setup.urlParses && setup.redisOpens then .connectingRedis else .pausing, s),
      [.opening])
  | (.pausing, s), .goOn => some ((.top, s), [.slept])
  | (.connectingRedis, s), .redis ok => some ((.connecting ok, s), [.redis ok])
  | (.connecting redis, s), .webSocket true => some ((.opened setup redis, s), [.opened])
  | (.connecting _, s), .webSocket false => some ((.pausing, s), [.refused])
  | (.subscribing redis, s), .sent ok =>
    match setup.subscription with
    | .text text => some ((if ok then .reading redis else .top, s), [.subscribed text ok])
    | _ => none
  | (.reading _, s), .next none => some ((.pausing, s), [.ended])
  | (.reading true, s), .next (some message) =>
    some ((.dispatch serde true message, s), [.took message false])
  | (.reading false, s), .next (some message) => some ((.reconnecting message, s), [])
  | (.reconnecting message, s), .redis ok =>
    some ((.dispatch serde ok message, s), [.took message ok])
  | (.handling redis (.await q k), s), .answer env =>
    some ((.handled redis (k (perform serde checks q env s).1), (perform serde checks q env s).2),
      [.answered ⟨q, (perform serde checks q env s).1⟩])
  | (.ponging redis data, s), .sent ok =>
    some ((if ok then .reading redis else .pausing, s), [.ponged data ok])
  | _, _ => none

/-- `ws_task` against the store; it is aborted where a run ends. -/
def feedLoop : Machine (Phase × FeedStore) Reply Did where
  step := feedStep serde setup checks

inductive Feeds : Phase × FeedStore → Reply → Phase × FeedStore → List Did → Prop where
  | opening (s : FeedStore) (possible : setup.urlParses = true ∧ setup.redisOpens = true) :
      Feeds (.top, s) .goOn (.connectingRedis, s) [.opening]
  | unusable (s : FeedStore) (broken : ¬ (setup.urlParses = true ∧ setup.redisOpens = true)) :
      Feeds (.top, s) .goOn (.pausing, s) [.opening]
  | slept (s : FeedStore) : Feeds (.pausing, s) .goOn (.top, s) [.slept]
  | redis (s : FeedStore) (ok : Bool) :
      Feeds (.connectingRedis, s) (.redis ok) (.connecting ok, s) [.redis ok]
  | opened (s : FeedStore) (redis : Bool) :
      Feeds (.connecting redis, s) (.webSocket true) (.opened setup redis, s) [.opened]
  | refused (s : FeedStore) (redis : Bool) :
      Feeds (.connecting redis, s) (.webSocket false) (.pausing, s) [.refused]
  | subscribed (s : FeedStore) (redis ok : Bool) (text : String)
      (command : setup.subscription = .text text) :
      Feeds (.subscribing redis, s) (.sent ok) (if ok then .reading redis else .top, s)
        [.subscribed text ok]
  | ended (s : FeedStore) (redis : Bool) :
      Feeds (.reading redis, s) (.next none) (.pausing, s) [.ended]
  | held (s : FeedStore) (message : Incoming) :
      Feeds (.reading false, s) (.next (some message)) (.reconnecting message, s) []
  | took (phase : Phase) (s : FeedStore) (reply : Reply) (message : Incoming) (before ok : Bool)
      (from' : (phase = .reading true ∧ reply = .next (some message) ∧ before = true ∧ ok = false) ∨
        phase = .reconnecting message ∧ reply = .redis ok ∧ before = false) :
      Feeds (phase, s) reply (.dispatch serde (before || ok) message, s) [.took message ok]
  | answered (s : FeedStore) (redis : Bool) (q : Await)
      (k : Answer q → Proc Await Answer (Except Stop Unit)) (env : Env) :
      Feeds (.handling redis (.await q k), s) (.answer env)
        (.handled redis (k (perform serde checks q env s).1), (perform serde checks q env s).2)
        [.answered ⟨q, (perform serde checks q env s).1⟩]
  | ponged (s : FeedStore) (redis ok : Bool) (data : String) :
      Feeds (.ponging redis data, s) (.sent ok) (if ok then .reading redis else .pausing, s)
        [.ponged data ok]

variable {serde setup checks}

theorem feeds_of_step {c c' : Phase × FeedStore} {reply : Reply} {out : List Did}
    (h : (feedLoop serde setup checks).step c reply = some (c', out)) :
    Feeds serde setup checks c reply c' out := by
  obtain ⟨phase, s⟩ := c
  simp only [feedLoop] at h
  cases phase with
  | top =>
    cases reply with
    | goOn =>
      cases h
      by_cases hpossible : setup.urlParses = true ∧ setup.redisOpens = true
      · simpa [hpossible.1, hpossible.2] using @Feeds.opening serde setup checks s hpossible
      · have hfalse : (setup.urlParses && setup.redisOpens) = false := by simpa using hpossible
        simpa [hfalse] using @Feeds.unusable serde setup checks s hpossible
    | _ => cases h
  | pausing =>
    cases reply with
    | goOn =>
      cases h
      exact .slept s
    | _ => cases h
  | connectingRedis =>
    cases reply with
    | redis ok =>
      cases h
      exact .redis s ok
    | _ => cases h
  | connecting redis =>
    cases reply with
    | webSocket ok =>
      cases ok with
      | true =>
        cases h
        exact .opened s redis
      | false =>
        cases h
        exact .refused s redis
    | _ => cases h
  | subscribing redis =>
    cases reply with
    | sent ok =>
      cases hcommand : setup.subscription with
      | text text =>
        simp only [feedStep, hcommand] at h
        cases h
        exact .subscribed s redis ok text hcommand
      | unserializable => simp [feedStep, hcommand] at h
      | unparsable => simp [feedStep, hcommand] at h
    | _ => cases h
  | reading redis =>
    cases reply with
    | next message =>
      cases message with
      | none =>
        cases redis <;> cases h <;> exact .ended s _
      | some message =>
        cases redis with
        | true =>
          cases h
          exact .took _ s _ message true false (Or.inl ⟨rfl, rfl, rfl, rfl⟩)
        | false =>
          cases h
          exact .held s message
    | _ => cases redis <;> cases h
  | reconnecting message =>
    cases reply with
    | redis ok =>
      cases h
      exact .took _ s _ message false ok (Or.inr ⟨rfl, rfl, rfl⟩)
    | _ => cases h
  | handling redis p =>
    cases p with
    | ret r => cases reply <;> cases h
    | await q k =>
      cases reply with
      | answer env =>
        cases h
        exact .answered s redis q k env
      | _ => cases h
  | ponging redis data =>
    cases reply with
    | sent ok =>
      cases h
      exact .ponged s redis ok data
    | _ => cases h
  | dead => cases reply <;> cases h

section ReadLoop

def Incoming.item (reconnected : Bool) : Incoming → WsItem
  | .text s => .text reconnected s
  | _ => .other reconnected

def Did.item : Did → Option WsItem
  | .redis connected => some (.session connected)
  | .took message reconnected => some (message.item reconnected)
  | _ => none

def Did.answer : Did → Option (Σ q, Answer q)
  | .answered a => some a
  | _ => none

def Reply.env : Reply → Option Env
  | .answer env => some env
  | _ => none

/-- What the read loop has met. -/
def itemsOf (out : List Did) : List WsItem := out.filterMap Did.item

def answersOf (out : List Did) : List (Σ q, Answer q) := out.filterMap Did.answer

variable (serde)

def resumeHandled (redis : Bool) (more : List WsItem) :
    Except Stop Unit → Proc Await Answer Unit
  | .ok _ => wsTask serde more redis
  | .error (.error e) => wsTask serde more (!dropsConnection e && redis)
  | .error .panic => .ret ()

/-- The read loop in a phase, with the items that are still to come; between two sessions its
connection to Redis is the last one. -/
def Phase.resume (last : Bool) (more : List WsItem) : Phase → Proc Await Answer Unit
  | .reading redis => wsTask serde more redis
  | .ponging redis _ => wsTask serde more redis
  | .reconnecting _ => wsTask serde more false
  | .handling redis p => p >>= resumeHandled serde redis more
  | .dead => .ret ()
  | .connecting redis => wsTask serde more redis
  | .subscribing redis => wsTask serde more redis
  | .top | .pausing | .connectingRedis => wsTask serde more last

variable {serde} {last : Bool} {more : List WsItem}

theorem resume_handled (redis : Bool) (p : Proc Await Answer (Except Stop Unit)) :
    (Phase.handled redis p).resume serde last more = p >>= resumeHandled serde redis more := by
  rcases p with (⟨e | _⟩ | _) | _ <;> rfl

theorem resume_dispatch (redis reconnected : Bool) (message : Incoming) :
    (Phase.dispatch serde (redis || reconnected) message).resume serde (redis || reconnected) more =
      wsTask serde (message.item reconnected :: more) redis := by
  cases message with
  | text s => exact resume_handled _ _
  | _ => rfl

theorem resume_opened (redis : Bool) :
    (Phase.opened setup redis).resume serde redis more = wsTask serde more redis := by
  rw [Phase.opened]
  cases setup.subscription <;> rfl

/-- Whatever comes after it, a run of the task is a run of the read loop over what it has met. -/
theorem loop_of_run {s₀ : FeedStore} {c : Phase × FeedStore} {replies : List Reply}
    {out : List Did} (run : (feedLoop serde setup checks).run (.top, s₀) replies = some (c, out)) :
    ∃ last, ∀ more, (alone serde checks).run (wsTask serde (itemsOf out ++ more) false, s₀)
      (replies.filterMap Reply.env) = some ((c.1.resume serde last more, c.2), answersOf out) := by
  refine Machine.run_invariant (feedLoop serde setup checks) (fun is os c => ∃ last, ∀ more,
    (alone serde checks).run (wsTask serde (itemsOf os ++ more) false, s₀)
      (is.filterMap Reply.env) = some ((c.1.resume serde last more, c.2), answersOf os))
    ⟨false, fun more => rfl⟩ ?_ run
  rintro is os c reply c' out _ ⟨last, inv⟩ hstep
  -- Nothing is answered: the run so far, with what the step has met in front of what follows.
  have hquiet : ∀ (met : List WsItem) (last' : Bool), Reply.env reply = none →
      itemsOf out = met → answersOf out = [] → c'.2 = c.2 →
      (∀ more, c'.1.resume serde last' more = c.1.resume serde last (met ++ more)) →
      ∃ last, ∀ more, (alone serde checks).run
        (wsTask serde (itemsOf (os ++ out) ++ more) false, s₀)
        ((is ++ [reply]).filterMap Reply.env) =
          some ((c'.1.resume serde last more, c'.2), answersOf (os ++ out)) := by
    intro met last' henv hmet hanswers hstore hresume
    refine ⟨last', fun more => ?_⟩
    have hrun := inv (met ++ more)
    rw [itemsOf, answersOf, List.filterMap_append, List.filterMap_append, List.filterMap_append,
      List.filterMap_cons_none henv, List.filterMap_nil, List.append_nil]
    change (alone serde checks).run (wsTask serde (itemsOf os ++ itemsOf out ++ more) false, s₀) _ =
      some (_, answersOf os ++ answersOf out)
    rw [hmet, hanswers, hresume, hstore, List.append_nil, List.append_assoc]
    exact hrun
  cases feeds_of_step hstep with
  | opening s possible => exact hquiet [] last rfl rfl rfl rfl fun _ => rfl
  | unusable s broken => exact hquiet [] last rfl rfl rfl rfl fun _ => rfl
  | slept s => exact hquiet [] last rfl rfl rfl rfl fun _ => rfl
  | redis s ok => exact hquiet [.session ok] last rfl rfl rfl rfl fun _ => rfl
  | opened s redis => exact hquiet [] redis rfl rfl rfl rfl fun _ => resume_opened redis
  | refused s redis => exact hquiet [] redis rfl rfl rfl rfl fun _ => rfl
  | subscribed s redis ok text command =>
    refine hquiet [] redis rfl rfl rfl rfl fun _ => ?_
    cases ok <;> rfl
  | ended s redis => exact hquiet [] redis rfl rfl rfl rfl fun _ => rfl
  | held s message => exact hquiet [] last rfl rfl rfl rfl fun _ => rfl
  | took phase s reply message before ok from' =>
    rcases from' with ⟨rfl, rfl, rfl, rfl⟩ | ⟨rfl, rfl, rfl⟩
    · exact hquiet [message.item false] true rfl rfl rfl rfl
        fun _ => resume_dispatch true false message
    · exact hquiet [message.item ok] ok rfl rfl rfl rfl fun _ => resume_dispatch false ok message
  | answered s redis q k env =>
    refine ⟨last, fun more => ?_⟩
    have hrun := inv more
    have hgoes : (alone serde checks).run
        ((Phase.handling redis (.await q k)).resume serde last more, s) [env] =
          some (((Phase.handled redis (k (perform serde checks q env s).1)).resume serde last more,
            (perform serde checks q env s).2), [⟨q, (perform serde checks q env s).1⟩]) := by
      rw [Machine.run_singleton, resume_handled]
      rfl
    have hitems :
        itemsOf (os ++ [.answered ⟨q, (perform serde checks q env s).1⟩]) = itemsOf os := by
      simp [itemsOf, Did.item]
    rw [hitems, List.filterMap_append, answersOf, List.filterMap_append]
    exact Machine.run_append _ hrun hgoes
  | ponged s redis ok data =>
    refine hquiet [] redis rfl rfl rfl rfl fun _ => ?_
    cases ok <;> rfl

end ReadLoop

section Sessions

def Did.InSession : Did → Prop
  | .took _ _ => True
  | .answered _ => True
  | .ponged _ _ => True
  | _ => False

def Did.ping : Did → Option String
  | .took (.ping data) _ => some data
  | _ => none

def Did.pong : Did → Option String
  | .ponged data _ => some data
  | _ => none

variable (setup)

/-- Since the WebSocket was opened the subscription has been sent first and once, every ping that
was taken on has been answered in its order, but for what is still owed, and nothing else was
sent. -/
def Subscribed (out : List Did) (owed : List String) : Prop :=
  ∃ older text session, setup.subscription = .text text ∧
    out = older ++ .opened :: .subscribed text true :: session ∧
    (∀ d ∈ session, d.InSession) ∧
    session.filterMap Did.ping = session.filterMap Did.pong ++ owed

/-- After what the task connects anew. -/
def Did.BeforeOpening (d : Did) : Prop :=
  d = .slept ∨ (∃ text, d = .subscribed text false) ∨
    d = .opened ∧ setup.subscription = .unserializable

/-- After what the task pauses. -/
def Did.BeforePause (d : Did) : Prop :=
  (d = .opening ∧ ¬ (setup.urlParses = true ∧ setup.redisOpens = true)) ∨
    d = .refused ∨ (d = .opened ∧ setup.subscription = .unparsable) ∨
    d = .ended ∨ (∃ reconnected, d = .took .close reconnected) ∨
    (∃ reconnected, d = .took .error reconnected) ∨ ∃ data, d = .ponged data false

def Phase.Reached (out : List Did) : Phase → Prop
  | .top => out = [] ∨ ∃ before d, out = before ++ [d] ∧ d.BeforeOpening setup
  | .pausing => ∃ before d, out = before ++ [d] ∧ d.BeforePause setup
  | .connectingRedis => ∃ before, out = before ++ [.opening]
  | .connecting _ => ∃ before connected, out = before ++ [.redis connected]
  | .subscribing _ => ∃ before, out = before ++ [.opened]
  | .ponging _ data => Subscribed setup out [data]
  | .reading _ | .reconnecting _ | .handling _ _ | .dead => Subscribed setup out []

variable {setup} {out : List Did}

theorem Subscribed.concat {owed owed' : List String} (h : Subscribed setup out owed) {d : Did}
    (inside : d.InSession)
    (balance : owed ++ d.ping.toList = d.pong.toList ++ owed') :
    Subscribed setup (out ++ [d]) owed' := by
  obtain ⟨older, text, session, hcommand, rfl, hinside, hpings⟩ := h
  refine ⟨older, text, session ++ [d], hcommand, by simp, fun d' hd' => ?_, ?_⟩
  · rcases List.mem_append.mp hd' with hold | hnew
    · exact hinside d' hold
    · rwa [List.mem_singleton.mp hnew]
  · have hone : ∀ f : Did → Option String, [d].filterMap f = (f d).toList := by
      intro f
      cases hf : f d <;> simp [hf]
    rw [List.filterMap_append, List.filterMap_append, hone, hone, hpings, List.append_assoc,
      List.append_assoc, balance]

theorem reached_handled (h : Subscribed setup out []) (redis : Bool)
    (p : Proc Await Answer (Except Stop Unit)) : (Phase.handled redis p).Reached setup out := by
  rcases p with (⟨e | _⟩ | _) | _ <;> exact h

theorem reached_dispatch (h : Subscribed setup out []) (redis reconnected : Bool)
    (message : Incoming) :
    (Phase.dispatch serde redis message).Reached setup (out ++ [.took message reconnected]) := by
  cases message with
  | text s =>
    have htook : Subscribed setup (out ++ [.took (.text s) reconnected]) [] := h.concat trivial rfl
    exact reached_handled htook redis _
  | binary => exact h.concat trivial rfl
  | ping data => exact h.concat trivial rfl
  | close =>
    exact ⟨out, _, rfl, Or.inr (Or.inr (Or.inr (Or.inr (Or.inl ⟨reconnected, rfl⟩))))⟩
  | other => exact h.concat trivial rfl
  | error =>
    exact ⟨out, _, rfl, Or.inr (Or.inr (Or.inr (Or.inr (Or.inr (Or.inl ⟨reconnected, rfl⟩)))))⟩

theorem reached_of_step {c c' : Phase × FeedStore} {reply : Reply} {did : List Did}
    (h : c.1.Reached setup out) (step : Feeds serde setup checks c reply c' did) :
    c'.1.Reached setup (out ++ did) := by
  cases step with
  | opening s possible => exact ⟨out, rfl⟩
  | unusable s broken => exact ⟨out, _, rfl, Or.inl ⟨rfl, broken⟩⟩
  | slept s => exact Or.inr ⟨out, _, rfl, Or.inl rfl⟩
  | redis s ok => exact ⟨out, ok, rfl⟩
  | opened s redis =>
    show (Phase.opened setup redis).Reached setup _
    rw [Phase.opened]
    cases hcommand : setup.subscription with
    | text text => exact ⟨out, rfl⟩
    | unserializable => exact Or.inr ⟨out, _, rfl, Or.inr (Or.inr ⟨rfl, hcommand⟩)⟩
    | unparsable => exact ⟨out, _, rfl, Or.inr (Or.inr (Or.inl ⟨rfl, hcommand⟩))⟩
  | refused s redis => exact ⟨out, _, rfl, Or.inr (Or.inl rfl)⟩
  | subscribed s redis ok text command =>
    obtain ⟨before, rfl⟩ := h
    cases ok with
    | true =>
      exact ⟨before, text, [], command, by simp, fun _ hd => absurd hd List.not_mem_nil, rfl⟩
    | false => exact Or.inr ⟨_, _, rfl, Or.inr (Or.inl ⟨text, rfl⟩)⟩
  | ended s redis => exact ⟨out, _, rfl, Or.inr (Or.inr (Or.inr (Or.inl rfl)))⟩
  | held s message =>
    rw [List.append_nil]
    exact h
  | took phase s reply message before ok from' =>
    have hsubscribed : Subscribed setup out [] := by
      rcases from' with ⟨rfl, _⟩ | ⟨rfl, _⟩ <;> exact h
    exact reached_dispatch hsubscribed _ ok message
  | answered s redis q k env =>
    have hsame : Subscribed setup (out ++ [.answered ⟨q, (perform serde checks q env s).1⟩]) [] :=
      Subscribed.concat h trivial rfl
    exact reached_handled hsame redis _
  | ponged s redis ok data =>
    cases ok with
    | true => exact Subscribed.concat h trivial rfl
    | false =>
      exact ⟨out, _, rfl, Or.inr (Or.inr (Or.inr (Or.inr (Or.inr (Or.inr ⟨data, rfl⟩)))))⟩

theorem reached_of_run {s₀ : FeedStore} {c : Phase × FeedStore} {replies : List Reply}
    (run : (feedLoop serde setup checks).run (.top, s₀) replies = some (c, out)) :
    c.1.Reached setup out :=
  have hstart : Phase.top.Reached setup [] := Or.inl rfl
  Machine.run_invariant (feedLoop serde setup checks) (fun _ os c => c.1.Reached setup os)
    hstart (fun _ _ _ _ _ _ _ h hstep => reached_of_step h (feeds_of_step hstep)) run

theorem feed_single {c c' : Phase × FeedStore} {reply : Reply} {did : List Did}
    (h : (feedLoop serde setup checks).step c reply = some (c', did)) : did.length ≤ 1 := by
  cases feeds_of_step h <;> simp

theorem reached_before {s₀ : FeedStore} {c : Phase × FeedStore} {replies : List Reply}
    {before after : List Did} {d : Did}
    (run : (feedLoop serde setup checks).run (.top, s₀) replies =
      some (c, before ++ d :: after)) :
    ∃ mid reply mid', mid.1.Reached setup before ∧ Feeds serde setup checks mid reply mid' [d] := by
  obtain ⟨_, reply, _, mid, mid', _, hbefore, hstep, _⟩ :=
    Machine.run_split (feedLoop serde setup checks) (fun _ _ _ _ h => feed_single h) run
  exact ⟨mid, reply, mid', reached_of_run hbefore, feeds_of_step hstep⟩

/-- Over all its sessions the task is one read loop over what they have brought. A message is taken
on only in a session that was opened by the subscription and in which no earlier ping is without its
pong; the task connects anew after a pause or when the subscription could not be made or sent, and
it never pauses on account of a message that it has handled. -/
theorem feed_sessions {s₀ : FeedStore} {c : Phase × FeedStore} {replies : List Reply}
    (run : (feedLoop serde setup checks).run (.top, s₀) replies = some (c, out)) :
    (∃ p, (alone serde checks).run (wsTask serde (itemsOf out) false, s₀)
      (replies.filterMap Reply.env) = some ((p, c.2), answersOf out)) ∧
    (∀ before message reconnected after, out = before ++ .took message reconnected :: after →
      Subscribed setup before []) ∧
    (∀ before after, out = before ++ .opening :: after →
      before = [] ∨ ∃ earlier d, before = earlier ++ [d] ∧ d.BeforeOpening setup) ∧
    ∀ before after, out = before ++ .slept :: after →
      ∃ earlier d, before = earlier ++ [d] ∧ d.BeforePause setup := by
  refine ⟨?_, ?_, ?_, ?_⟩
  · obtain ⟨last, hloop⟩ := loop_of_run run
    have hall := hloop []
    rw [List.append_nil] at hall
    exact ⟨_, hall⟩
  · rintro before message reconnected after rfl
    obtain ⟨mid, reply, mid', hreached, hstep⟩ := reached_before run
    cases hstep with
    | took phase s reply message before ok from' =>
      rcases from' with ⟨rfl, _⟩ | ⟨rfl, _⟩ <;> exact hreached
  · rintro before after rfl
    obtain ⟨mid, reply, mid', hreached, hstep⟩ := reached_before run
    cases hstep <;> exact hreached
  · rintro before after rfl
    obtain ⟨mid, reply, mid', hreached, hstep⟩ := reached_before run
    cases hstep
    exact hreached

def feedSetup : Setup := ⟨true, true, .text "\x7b\x7d"⟩

def feedReplies : List Reply :=
  [.goOn, .redis false, .webSocket false, .goOn, .goOn, .redis false, .webSocket true, .sent true,
    .next (some (.ping "a")), .redis false, .sent true, .next (some (.text tradeText)),
    .redis true] ++ List.replicate 5 (.answer .fine) ++ [.next (some .close), .goOn, .goOn]

theorem feed_session_run : ∃ c out p,
    (feedLoop tradeJson feedSetup true).run (.top, .first) feedReplies = some (c, out) ∧
    (itemsOf out).length = 5 ∧ (answersOf out).length = 5 ∧
    (alone tradeJson true).run (wsTask tradeJson (itemsOf out) false, .first)
      (feedReplies.filterMap Reply.env) = some ((p, c.2), answersOf out) := by
  have hrun : ((feedLoop tradeJson feedSetup true).run (.top, .first) feedReplies).map
      (fun r => ((itemsOf r.2).length, (answersOf r.2).length)) = some (5, 5) := by
    decide +kernel
  obtain ⟨⟨c, out⟩, run, hvalues⟩ := Option.map_eq_some_iff.mp hrun
  obtain ⟨hitems, hanswers⟩ := Prod.mk.inj hvalues
  obtain ⟨p, hloop⟩ := (feed_sessions run).1
  exact ⟨c, out, p, run, hitems, hanswers, hloop⟩

end Sessions

end RustExperiments.TradeFeed
