/- module: RustExperiments/TradeFeed/Publication
   digest: The read loop of the feed: what it publishes, against what it stores. -/

import RustExperiments.Lib.Hidden
import RustExperiments.TradeFeed.Handling

set_option autoImplicit false
set_option relaxedAutoImplicit false

namespace RustExperiments.TradeFeed

open RustExperiments.Lib RustExperiments.Lib.Proc

section Loop

/-- What the loop meets: a new session, which tries to connect to Redis, and the items that the
WebSocket delivers in it. Where there is no connection every item tries first. -/
inductive WsItem where
  | session (connected : Bool)
  | text (reconnected : Bool) (text : String)
  /-- a binary message, a ping, a close, or an error of the WebSocket -/
  | other (reconnected : Bool)
  deriving DecidableEq, Repr

/-- The errors on which the loop gives up the connection. -/
def dropsConnection (errorString : String) : Bool :=
  contains errorString "Redis connection lost" || contains errorString "redis" ||
    contains errorString "broken pipe"

variable (serde : SerdeJson)

/-- The read loop of `ws_task`; a panic ends the task. -/
def wsTask : List WsItem → Bool → Proc Await Answer Unit
  | [], _ => .ret ()
  | .session connected :: items, _ => wsTask items connected
  | .other reconnected :: items, redisConnection => wsTask items (redisConnection || reconnected)
  | .text reconnected text :: items, redisConnection => do
    let r ← (handleWsMessage serde text (redisConnection || reconnected)).run
    match r with
    | .ok _ => wsTask items (redisConnection || reconnected)
    | .error (.error e) =>
      wsTask items (!dropsConnection e && (redisConnection || reconnected))
    | .error .panic => .ret ()

def WsItem.offline : WsItem → WsItem
  | .session _ => .session false
  | .text _ message => .text false message
  | .other _ => .other false

def WsItem.message : WsItem → Option String
  | .text _ message => some message
  | _ => none

end Loop

section Streams

def publishedPayload : (Σ q, Answer q) → Option String
  | ⟨.publish _ payload, .ok _⟩ => some payload
  | _ => none

def storedBatch : (Σ q, Answer q) → List (Trade × ℕ)
  | ⟨.run (.storeTradeBatch batch), .ok _⟩ => batch
  | _ => []

/-- What was published, in order. -/
def publishedStream (answers : List (Σ q, Answer q)) : List String :=
  answers.filterMap publishedPayload

/-- The trades that were stored, in order. -/
def storedStream (answers : List (Σ q, Answer q)) : List Trade :=
  (answers.flatMap storedBatch).map Prod.fst

@[simp] theorem publishedStream_append (xs ys : List (Σ q, Answer q)) :
    publishedStream (xs ++ ys) = publishedStream xs ++ publishedStream ys := List.filterMap_append

@[simp] theorem storedStream_append (xs ys : List (Σ q, Answer q)) :
    storedStream (xs ++ ys) = storedStream xs ++ storedStream ys := by
  rw [storedStream, List.flatMap_append, List.map_append]
  rfl

theorem publishedStream_concat {answers : List (Σ q, Answer q)} {a : Σ q, Answer q}
    (silent : publishedPayload a = none) :
    publishedStream (answers ++ [a]) = publishedStream answers := by
  rw [publishedStream_append, publishedStream, publishedStream, List.filterMap_cons_none silent]
  exact List.append_nil _

theorem storedStream_concat {answers : List (Σ q, Answer q)} {a : Σ q, Answer q}
    (silent : storedBatch a = []) : storedStream (answers ++ [a]) = storedStream answers := by
  rw [storedStream_append, storedStream, storedStream, List.flatMap_singleton, silent]
  exact List.append_nil _

def PublishFails (answers : List (Σ q, Answer q)) : Prop :=
  ∃ channel payload e, (⟨.publish channel payload, .error e⟩ : Σ q, Answer q) ∈ answers

end Streams

section Delivering

/-- How far the publication of one message is. -/
inductive Delivery where
  | collecting
  | sending (trades : List Trade)
  | stopped (trades : List Trade)

variable (serde : SerdeJson)

def deliveryProtocol : Protocol Await Answer Delivery where
  allows
    | .collecting, q => ∀ channel payload, q ≠ .publish channel payload
    | .sending (trade :: _), q => q = .publish "trades" (serde.tradeToString trade)
    | _, _ => False
  next
    | .collecting, .run (.storeTradeBatch batch), .ok _ => .sending (batch.map Prod.fst)
    | .sending (_ :: trades), .publish _ _, .ok _ => .sending trades
    | .sending trades, .publish _ _, .error _ => .stopped trades
    | g, _, _ => g

def Delivery.Ends (redisConnection : Bool) : Delivery → Prop
  | .sending trades => redisConnection = true → trades = []
  | _ => True

variable {serde}

theorem run_delivers {β : Type} {q : DbRequest} (unstored : ∀ batch, q ≠ .storeTradeBatch batch)
    {f : q.Response → Async β} {post : Delivery → Except Stop β → Prop}
    (ok : ∀ v, (f v).run.Obeys (deliveryProtocol serde) post .collecting)
    (error : ∀ e, post .collecting (.error (.error e))) :
    (TradeFeed.run q >>= f).run.Obeys (deliveryProtocol serde) post .collecting := by
  refine .await (fun _ _ h => by cases h) fun answer => ?_
  have hnext : (deliveryProtocol serde).next .collecting (.run q) answer = .collecting := by
    cases q with
    | storeTradeBatch batch => exact absurd rfl (unstored batch)
    | _ => rfl
  rw [hnext]
  cases answer with
  | ok v => exact ok v
  | error e => exact .ret (error e)

theorem handleRows_delivers (pair : String) (rows : List (List (JsonValue serde.F64)))
    (trades : List (Trade × ℕ)) :
    (handleRows serde pair rows trades).run.Obeys (deliveryProtocol serde)
      (fun g _ => g = .collecting) .collecting := by
  induction rows generalizing trades with
  | nil => exact .ret rfl
  | cons row rows ih =>
    rcases row_cases row with hshort | ⟨c0, c1, c2, c3, c4, rest, rfl⟩
    · rw [handleRows_short pair hshort]
      exact ih trades
    refine run_delivers (fun _ h => by cases h) (fun index => ?_) fun _ => rfl
    refine run_delivers (fun _ h => by cases h) (fun idExists => ?_) fun _ => rfl
    cases idExists with
    | true => exact ih trades
    | false => exact run_delivers (fun _ h => by cases h) (fun _ => ih _) fun _ => rfl

theorem publishTrades_delivers (batch : List (Trade × ℕ)) :
    (publishTrades serde batch).run.Obeys (deliveryProtocol serde) (fun g _ => g.Ends true)
      (.sending (batch.map Prod.fst)) := by
  induction batch with
  | nil => exact .ret fun _ => rfl
  | cons entry batch ih =>
    have hpublish : (publish "trades" (serde.tradeToString entry.1)).run.Obeys
        (deliveryProtocol serde) (fun g r => (r = .ok () → g = .sending (batch.map Prod.fst)) ∧
          (∀ e, r = .error e → g.Ends true)) (.sending ((entry :: batch).map Prod.fst)) := by
      refine .await rfl fun answer => ?_
      cases answer with
      | ok _ => exact .ret ⟨fun _ => rfl, fun _ h => by cases h⟩
      | error e =>
        dsimp only
        split_ifs
        · exact .ret ⟨fun h => (by cases h), fun _ _ => trivial⟩
        · exact .ret ⟨fun h => (by cases h), fun _ _ => trivial⟩
    refine hpublish.except_bind (fun g a hg => ?_) fun g e hg => hg.2 e rfl
    rw [hg.1 rfl]
    exact ih

theorem log_delivers (text : String) :
    (logMessageFormat text).run.Obeys (deliveryProtocol serde) (fun g _ => g = .collecting)
      .collecting := by
  unfold logMessageFormat
  split_ifs <;> exact .ret rfl

theorem inspectArray_delivers {Number : Type} (arr : List (Value Number)) :
    (inspectArray arr).run.Obeys (deliveryProtocol serde) (fun g _ => g = .collecting)
      .collecting := by
  unfold inspectArray
  repeat' split
  all_goals exact .ret rfl

theorem handleTradeMessage_delivers (rows : List (List (JsonValue serde.F64)))
    (channelName pair : String) (redisConnection : Bool) :
    (handleTradeMessage serde rows channelName pair redisConnection).run.Obeys
      (deliveryProtocol serde) (fun g _ => g.Ends redisConnection) .collecting := by
  unfold handleTradeMessage
  by_cases hchannel : channelName = "trade"
  · rw [if_pos hchannel]
    refine (handleRows_delivers pair rows []).except_bind (fun g trades hg => ?_) fun g _ hg => ?_
    · rw [hg]
      by_cases hempty : trades.isEmpty
      · rw [if_pos hempty]
        exact .ret trivial
      · rw [if_neg hempty]
        refine .await (fun _ _ h => by cases h) fun answer => ?_
        cases answer with
        | error e => exact .ret trivial
        | ok count =>
          cases redisConnection with
          | true => exact publishTrades_delivers trades
          | false => exact .ret fun h => by cases h
    · rw [hg]
      trivial
  · rw [if_neg hchannel]
    exact .ret trivial

theorem handleWsMessage_delivers (text : String) (redisConnection : Bool) :
    (handleWsMessage serde text redisConnection).run.Obeys (deliveryProtocol serde)
      (fun g _ => g.Ends redisConnection) .collecting := by
  have hends : ∀ {α : Type} (g : Delivery) (_ : Except Stop α), g = .collecting →
      g.Ends redisConnection := fun g _ hg => by
    rw [hg]
    trivial
  have hlog : (logMessageFormat text).run.Obeys (deliveryProtocol serde)
      (fun g _ => g.Ends redisConnection) .collecting := (log_delivers text).mono hends
  unfold handleWsMessage
  rcases serde.fromStr text with e | message
  · refine (log_delivers text).except_bind (fun g _ hg => ?_) fun g stop hg =>
      hends g (.error stop : Except Stop Unit) hg
    exact .ret (hends g (.error (.error e) : Except Stop Unit) hg)
  cases message with
  | tradeMessage channelId rows channelName pair =>
    exact handleTradeMessage_delivers rows channelName pair redisConnection
  | eventMessage event =>
    cases event with
    | unknown => exact hlog
    | _ => exact .ret trivial
  | generic value =>
    cases value with
    | array arr =>
      refine (log_delivers text).except_bind (fun g _ hg => ?_) fun g stop hg =>
        hends g (.error stop : Except Stop Unit) hg
      rw [hg]
      exact (inspectArray_delivers arr).mono hends
    | object fields => exact hlog
    | _ => exact .ret trivial

end Delivering

section Messages

variable {checks : Bool}

def Streams (serde : SerdeJson) (answers : List (Σ q, Answer q)) (g : Delivery) : Prop :=
  ∃ sent : List Trade, publishedStream answers = sent.map serde.tradeToString ∧
    match g with
    | .collecting => sent = [] ∧ storedStream answers = []
    | .sending trades => storedStream answers = sent ++ trades
    | .stopped trades => storedStream answers = sent ++ trades ∧ PublishFails answers

variable {serde : SerdeJson}

theorem Streams.step {answers : List (Σ q, Answer q)} {g : Delivery} {q : Await} (a : Answer q)
    (h : Streams serde answers g) (allowed : (deliveryProtocol serde).allows g q) :
    Streams serde (answers ++ [⟨q, a⟩]) ((deliveryProtocol serde).next g q a) := by
  obtain ⟨sent, hpublished, hstored⟩ := h
  rcases g with _ | ⟨_ | ⟨trade, trades⟩⟩ | trades
  · rcases q with q | ⟨channel, payload⟩
    · obtain ⟨rfl, hnothing⟩ := hstored
      refine ⟨[], by rw [publishedStream_concat rfl, hpublished], ?_⟩
      cases q with
      | storeTradeBatch batch =>
        cases a with
        | ok n =>
          change storedStream _ = _
          rw [storedStream_append, hnothing]
          simp [storedStream, storedBatch]
        | error e => exact ⟨rfl, (storedStream_concat rfl).trans hnothing⟩
      | _ => exact ⟨rfl, (storedStream_concat rfl).trans hnothing⟩
    · exact absurd rfl (allowed channel payload)
  · exact allowed.elim
  · obtain rfl := allowed
    cases a with
    | ok _ =>
      refine ⟨sent ++ [trade], ?_, ?_⟩
      · rw [publishedStream_append, hpublished, List.map_append]
        rfl
      · change storedStream _ = _
        rw [storedStream_concat rfl, hstored, List.append_assoc, List.singleton_append]
    | error e =>
      refine ⟨sent, by rw [publishedStream_concat rfl, hpublished],
        (storedStream_concat rfl).trans hstored, "trades", serde.tradeToString trade, e, ?_⟩
      exact List.mem_append_right _ (List.mem_singleton.mpr rfl)
  · exact allowed.elim

def Ordered (serde : SerdeJson) (answers : List (Σ q, Answer q)) : Prop :=
  ∀ before channel payload r after,
    answers = before ++ (⟨.publish channel payload, r⟩ : Σ q, Answer q) :: after →
    channel = "trades" ∧ ∃ trade ∈ storedStream before, payload = serde.tradeToString trade

theorem Ordered.append {xs ys : List (Σ q, Answer q)} (hx : Ordered serde xs)
    (hy : Ordered serde ys) : Ordered serde (xs ++ ys) := by
  intro before channel payload r after heq
  rcases List.append_eq_append_iff.mp heq with ⟨as, rfl, hys⟩ | ⟨bs, hxs, hafter⟩
  · obtain ⟨hchannel, trade, htrade, hpayload⟩ := hy as channel payload r after hys
    rw [storedStream_append]
    exact ⟨hchannel, trade, List.mem_append_right _ htrade, hpayload⟩
  · rcases bs with _ | ⟨b, bs⟩
    · obtain ⟨hchannel, trade, htrade, _⟩ := hy [] channel payload r after hafter.symm
      cases htrade
    · obtain ⟨rfl, _⟩ := List.cons.inj hafter
      exact hx before channel payload r bs hxs

theorem Ordered.step {answers : List (Σ q, Answer q)} {g : Delivery} {q : Await} (a : Answer q)
    (h : Ordered serde answers) (streams : Streams serde answers g)
    (allowed : (deliveryProtocol serde).allows g q) : Ordered serde (answers ++ [⟨q, a⟩]) := by
  intro before channel payload r after heq
  rcases List.eq_nil_or_concat after with rfl | ⟨after, last, rfl⟩
  · obtain ⟨rfl, hlast⟩ := List.append_inj' heq rfl
    cases hlast
    obtain ⟨sent, _, hstored⟩ := streams
    rcases g with _ | ⟨_ | ⟨trade, trades⟩⟩ | trades
    · exact absurd rfl (allowed channel payload)
    · exact allowed.elim
    · cases allowed
      refine ⟨rfl, trade, ?_, rfl⟩
      rw [hstored]
      exact List.mem_append_right _ List.mem_cons_self
    · exact allowed.elim
  · rw [List.concat_eq_append, ← List.cons_append, ← List.append_assoc] at heq
    exact h before channel payload r after (List.append_inj' heq rfl).1

/-- The handling of one text, wherever it stopped. -/
structure Handled where
  text : String
  connected : Bool
  answers : List (Σ q, Answer q)
  finished : Bool

/-- Of the batch that was stored exactly a prefix was published: none of it without a connection,
all of it where the handler returned and no publication failed. -/
def Handled.Delivers (serde : SerdeJson) (h : Handled) : Prop :=
  ∃ sent unsent : List Trade, storedStream h.answers = sent ++ unsent ∧
    publishedStream h.answers = sent.map serde.tradeToString ∧
    (h.connected = false → sent = []) ∧
    (h.connected = true → h.finished = true → ¬ PublishFails h.answers → unsent = [])

theorem Streams.sent {answers : List (Σ q, Answer q)} {g : Delivery}
    (h : Streams serde answers g) :
    ∃ sent unsent : List Trade, storedStream answers = sent ++ unsent ∧
      publishedStream answers = sent.map serde.tradeToString ∧
      (g.Ends true → ¬ PublishFails answers → unsent = []) := by
  obtain ⟨sent, hpublished, hstored⟩ := h
  cases g with
  | collecting =>
    obtain ⟨rfl, hnothing⟩ := hstored
    exact ⟨[], [], hnothing, hpublished, fun _ _ => rfl⟩
  | sending trades => exact ⟨sent, trades, hstored, hpublished, fun hends _ => hends rfl⟩
  | stopped trades =>
    exact ⟨sent, trades, hstored.1, hpublished, fun _ hfails => absurd hstored.2 hfails⟩

def asksRedis : Await → Bool
  | .run _ => false
  | .publish _ _ => true

end Messages

section Offline

variable {serde : SerdeJson} {checks : Bool}

instance (q : Await) : Nonempty (Answer q) := by
  cases q <;> exact ⟨.error ""⟩

def SamePanic {α β : Type} (r : Except Stop α) (r' : Except Stop β) : Prop :=
  r = .error .panic ↔ r' = .error .panic

abbrev Shows {α : Type} (m : Async α) : Prop := Hides asksRedis Eq m.run m.run

theorem run_hides {α β : Type} {rel : Except Stop α → Except Stop β → Prop} (q : DbRequest)
    {f : q.Response → Async α} {f' : q.Response → Async β}
    (ok : ∀ v, Hides asksRedis rel (f v).run (f' v).run)
    (error : ∀ e, rel (.error (.error e)) (.error (.error e))) :
    Hides asksRedis rel (TradeFeed.run q >>= f).run (TradeFeed.run q >>= f').run := by
  refine .shown rfl fun answer => ?_
  cases answer with
  | ok v => exact ok v
  | error e => exact .ret (error e)

theorem handleRows_shows (pair : String) (rows : List (List (JsonValue serde.F64)))
    (trades : List (Trade × ℕ)) : Shows (handleRows serde pair rows trades) := by
  induction rows generalizing trades with
  | nil => exact .ret rfl
  | cons row rows ih =>
    rcases row_cases row with hshort | ⟨c0, c1, c2, c3, c4, rest, rfl⟩
    · rw [handleRows_short pair hshort]
      exact ih trades
    refine run_hides _ (fun index => ?_) fun _ => rfl
    refine run_hides _ (fun idExists => ?_) fun _ => rfl
    cases idExists with
    | true => exact ih trades
    | false => exact run_hides _ (fun _ => ih _) fun _ => rfl

theorem publishTrades_hides (batch : List (Trade × ℕ)) :
    Hides asksRedis SamePanic (publishTrades serde batch).run (pure () : Async Unit).run := by
  induction batch with
  | nil => exact .ret Iff.rfl
  | cons entry batch ih =>
    refine .skipped rfl fun answer => ?_
    cases answer with
    | ok _ => exact ih
    | error e =>
      dsimp only
      split_ifs
      · exact .ret (iff_of_false (fun h => by cases h) fun h => by cases h)
      · exact .ret (iff_of_false (fun h => by cases h) fun h => by cases h)

theorem handleTradeMessage_hides (rows : List (List (JsonValue serde.F64)))
    (channelName pair : String) (redisConnection : Bool) :
    Hides asksRedis SamePanic
      (handleTradeMessage serde rows channelName pair redisConnection).run
      (handleTradeMessage serde rows channelName pair false).run := by
  unfold handleTradeMessage
  by_cases hchannel : channelName = "trade"
  · rw [if_pos hchannel, if_pos hchannel]
    refine (handleRows_shows pair rows []).bind fun r r' hr => ?_
    subst hr
    rcases r with stop | trades
    · exact .ret Iff.rfl
    by_cases hempty : trades.isEmpty
    · change Hides asksRedis SamePanic (if _ then _ else _ : Async Unit).run
        (if _ then _ else _ : Async Unit).run
      rw [if_pos hempty, if_pos hempty]
      exact .ret Iff.rfl
    · change Hides asksRedis SamePanic (if _ then _ else _ : Async Unit).run
        (if _ then _ else _ : Async Unit).run
      rw [if_neg hempty, if_neg hempty]
      refine run_hides _ (fun count => ?_) fun _ => Iff.rfl
      cases redisConnection with
      | true => exact publishTrades_hides trades
      | false => exact .ret Iff.rfl
  · rw [if_neg hchannel, if_neg hchannel]
    exact .ret Iff.rfl

theorem logMessageFormat_returns (text : String) :
    ∃ r, (logMessageFormat text).run = .ret r := by
  unfold logMessageFormat
  split_ifs <;> exact ⟨_, rfl⟩

theorem inspectArray_returns {Number : Type} (arr : List (Value Number)) :
    ∃ r, (inspectArray arr).run = .ret r := by
  unfold inspectArray
  repeat' split
  all_goals exact ⟨_, rfl⟩

theorem handleWsMessage_hides (serde : SerdeJson) (text : String) (redisConnection : Bool) :
    Hides asksRedis SamePanic (handleWsMessage serde text redisConnection).run
      (handleWsMessage serde text false).run := by
  have hself : ∀ {α : Type} {m : Proc Await Answer (Except Stop α)}, (∃ r, m = .ret r) →
      Hides asksRedis SamePanic m m := by
    rintro α m ⟨r, rfl⟩
    exact .ret Iff.rfl
  obtain ⟨r, hlog⟩ := logMessageFormat_returns text
  unfold handleWsMessage
  rcases serde.fromStr text with e | message
  · refine hself ?_
    change ∃ r', (logMessageFormat text).run >>= _ = _
    rw [hlog]
    cases r <;> exact ⟨_, rfl⟩
  cases message with
  | tradeMessage channelId rows channelName pair =>
    exact handleTradeMessage_hides rows channelName pair redisConnection
  | eventMessage event =>
    cases event with
    | unknown => exact hself ⟨r, hlog⟩
    | _ => exact .ret Iff.rfl
  | generic value =>
    cases value with
    | array arr =>
      refine hself ?_
      change ∃ r', (logMessageFormat text).run >>= _ = _
      rw [hlog]
      cases r with
      | error stop => exact ⟨_, rfl⟩
      | ok _ => exact inspectArray_returns arr
    | object fields => exact hself ⟨r, hlog⟩
    | _ => exact .ret Iff.rfl

/-- The loop asks for the same of the database as it does where Redis is never reached. -/
theorem wsTask_hides (serde : SerdeJson) (items : List WsItem) (redisConnection : Bool) :
    Hides asksRedis Eq (wsTask serde items redisConnection)
      (wsTask serde (items.map WsItem.offline) false) := by
  induction items generalizing redisConnection with
  | nil => exact .ret rfl
  | cons item items ih =>
    cases item with
    | session connected => exact ih connected
    | other reconnected => exact ih (redisConnection || reconnected)
    | text reconnected message =>
      refine (handleWsMessage_hides serde message _).bind fun r r' hr => ?_
      have hon : r ≠ .error .panic → ∀ c, Hides asksRedis Eq (match r with
          | .ok _ => wsTask serde items c
          | .error (.error e) => wsTask serde items (!dropsConnection e && c)
          | .error .panic => .ret ()) (wsTask serde (items.map WsItem.offline) false) := by
        intro hpanic c
        rcases r with (e | _) | _
        · exact ih _
        · exact absurd rfl hpanic
        · exact ih _
      by_cases hpanic : r = .error .panic
      · rw [hpanic, hr.mp hpanic]
        exact .ret rfl
      · rcases r' with (e | _) | _
        · have hoffline := hon hpanic (redisConnection || reconnected)
          rwa [← Bool.and_false (!dropsConnection e)] at hoffline
        · exact absurd (hr.mpr rfl) hpanic
        · exact hon hpanic (redisConnection || reconnected)

end Offline

section Identifiers

def Writer.pending : Writer → List String
  | .loop _ batch => batch.map (·.1.id)
  | .counted _ _ _ batch => batch.map (·.1.id)
  | .checked _ _ _ batch => batch.map (·.1.id)
  | _ => []

def Writer.Missing (db : TradeDb) : Writer → Prop
  | .checked row index _ _ => db.tradeIds.lookup (tradeIdOf index row.price) = none
  | _ => True

/-- The identifiers of the trades that were stored or wait to be stored are all different, and
the table of identifiers has them all. -/
structure Distinct (old : List String) (answers : List (Σ q, Answer q)) (db : TradeDb)
    (w : Writer) : Prop where
  nodup : (old ++ (storedStream answers).map Trade.id ++ w.pending).Nodup
  known : ∀ id ∈ old ++ (storedStream answers).map Trade.id ++ w.pending,
    (db.tradeIds.lookup id).isSome
  missing : w.Missing db

variable {serde : SerdeJson} {checks : Bool}

theorem ids_of_storeTrades (db : TradeDb) (batch : List (Trade × ℕ)) {id : String}
    (h : (db.tradeIds.lookup id).isSome) :
    ((db.storeTrades serde batch).tradeIds.lookup id).isSome := by
  induction batch generalizing db with
  | nil => exact h
  | cons entry batch ih =>
    rw [storeTrades_cons]
    refine ih _ ?_
    change ((db.tradeIds.insert entry.1.id entry.2).lookup id).isSome
    rw [Table.lookup_insert_ite]
    split_ifs
    · rfl
    · exact h

theorem Distinct.idle {old : List String} {answers : List (Σ q, Answer q)} {db db' : TradeDb}
    {w w' : Writer} {a : Σ q, Answer q} (h : Distinct old answers db w)
    (silent : storedBatch a = []) (ids : db'.tradeIds = db.tradeIds)
    (pending : w'.pending = w.pending ∨ w'.pending = []) (missing : w'.Missing db') :
    Distinct old (answers ++ [a]) db' w' := by
  have hstored : storedStream (answers ++ [a]) = storedStream answers :=
    storedStream_concat silent
  have hsub : (old ++ (storedStream answers).map Trade.id ++ w'.pending).Sublist
      (old ++ (storedStream answers).map Trade.id ++ w.pending) := by
    rcases pending with hsame | hnone
    · rw [hsame]
    · rw [hnone, List.append_nil]
      exact List.sublist_append_left _ _
  refine ⟨?_, ?_, missing⟩
  · rw [hstored]
    exact h.nodup.sublist hsub
  · rw [hstored, ids]
    exact fun id hid => h.known id (hsub.subset hid)

theorem Distinct.reserved {old : List String} {answers : List (Σ q, Answer q)} {db : TradeDb}
    {row : Row} {index : ℕ} {todo : List Row} {batch : List (Trade × ℕ)}
    (h : Distinct old answers db (.checked row index todo batch)) :
    Distinct old
      (answers ++ [⟨.run (.storeIdWithIndex (tradeIdOf index row.price) index), .ok ()⟩])
      (db.storeId (tradeIdOf index row.price) index)
      (.loop todo (batch ++ [(row.trade index, index)])) := by
  have hmissing : db.tradeIds.lookup (tradeIdOf index row.price) = none := h.missing
  have hids : old ++ (storedStream (answers ++
        [⟨.run (.storeIdWithIndex (tradeIdOf index row.price) index), .ok ()⟩])).map Trade.id ++
      (Writer.loop todo (batch ++ [(row.trade index, index)])).pending =
      old ++ (storedStream answers).map Trade.id ++ batch.map (·.1.id) ++
        [tradeIdOf index row.price] := by
    rw [storedStream_concat rfl, Writer.pending, List.map_append, ← List.append_assoc]
    rfl
  refine ⟨?_, ?_, trivial⟩
  · rw [hids]
    refine List.nodup_append.mpr ⟨h.nodup, List.nodup_singleton _, ?_⟩
    rintro id hid _ hnew rfl
    have hknown := h.known id hid
    rw [List.mem_singleton.mp hnew, hmissing] at hknown
    cases hknown
  · rw [hids]
    intro id hid
    rw [tradeIds_storeId, Table.lookup_insert_ite]
    split_ifs with heq
    · rfl
    · rcases List.mem_append.mp hid with hold | hnew
      · exact h.known id hold
      · exact absurd (List.mem_singleton.mp hnew) heq

theorem Distinct.stored {old : List String} {answers : List (Σ q, Answer q)} {db : TradeDb}
    {todo : List Row} {batch : List (Trade × ℕ)} {n : ℕ}
    (h : Distinct old answers db (.loop todo batch)) :
    Distinct old (answers ++ [⟨.run (.storeTradeBatch batch), .ok n⟩])
      (db.storeTrades serde batch) (.publishing (batch.map Prod.fst)) := by
  have hids : old ++ (storedStream (answers ++
        [⟨.run (.storeTradeBatch batch), .ok n⟩])).map Trade.id ++
      (Writer.publishing (batch.map Prod.fst)).pending =
      old ++ (storedStream answers).map Trade.id ++ (Writer.loop todo batch).pending := by
    simp [storedStream, storedBatch, Writer.pending, Function.comp_def]
  refine ⟨?_, ?_, trivial⟩
  · rw [hids]
    exact h.nodup
  · rw [hids]
    exact fun id hid => ids_of_storeTrades db batch (h.known id hid)

theorem Distinct.perform {old : List String} {answers : List (Σ q, Answer q)} {db db' : TradeDb}
    {w : Writer} {q : Await} {a : Answer q} (h : Distinct old answers db w)
    (writes : w ≠ .reader) (allowed : w.allows serde q) (effect : Effect serde checks db q a db') :
    Distinct old (answers ++ [⟨q, a⟩]) db' (w.next q a) := by
  have hmoves := Writer.moves writes allowed effect
  generalize w.next q a = w' at hmoves ⊢
  cases hmoves with
  | failed _ q e =>
    refine h.idle ?_ rfl (Or.inr rfl) trivial
    cases q <;> rfl
  | counted row todo batch new advanced =>
    exact h.idle rfl (tradeIds_setTotal _ _) (Or.inl rfl) trivial
  | known => exact h.idle rfl rfl (Or.inl rfl) trivial
  | fresh row index todo batch absent => exact h.idle rfl rfl (Or.inl rfl) absent
  | reserved => exact h.reserved
  | stored => exact h.stored
  | published => exact h.idle rfl rfl (Or.inr rfl) trivial
  | unpublished => exact h.idle rfl rfl (Or.inr rfl) trivial

end Identifiers

section Runs

variable {serde : SerdeJson} {checks : Bool}

/-- Code alone with the worker and with Redis. -/
def alone (serde : SerdeJson) (checks : Bool) {R : Type} :
    Machine (Proc Await Answer R × FeedStore) Env (Σ q, Answer q) :=
  Proc.machine (perform serde checks)

/-- Messages handled one after the other, from a store to a store; only the last one may be cut
short. -/
inductive Handlings (serde : SerdeJson) (checks : Bool) :
    FeedStore → List Handled → FeedStore → Prop where
  | nil (s : FeedStore) : Handlings serde checks s [] s
  | cut {s t : FeedStore} {h : Handled} {inputs : List Env}
      {p : Proc Await Answer (Except Stop Unit)}
      (run : (alone serde checks).run ((handleWsMessage serde h.text h.connected).run, s) inputs =
        some ((p, t), h.answers)) (unfinished : h.finished = false) : Handlings serde checks s [h] t
  | cons {s mid t : FeedStore} {h : Handled} {hs : List Handled} {inputs : List Env}
      {r : Except Stop Unit}
      (run : (alone serde checks).run ((handleWsMessage serde h.text h.connected).run, s) inputs =
        some ((.ret r, mid), h.answers)) (finished : h.finished = true)
      (rest : Handlings serde checks mid hs t) : Handlings serde checks s (h :: hs) t

theorem wsTask_handles {items : List WsItem} {redisConnection : Bool} {s s' : FeedStore}
    {inputs : List Env} {p : Proc Await Answer Unit} {answers : List (Σ q, Answer q)}
    (run : (alone serde checks).run (wsTask serde items redisConnection, s) inputs =
      some ((p, s'), answers)) :
    ∃ hs, Handlings serde checks s hs s' ∧ answers = hs.flatMap Handled.answers ∧
      hs.map Handled.text <+: items.filterMap WsItem.message := by
  induction items generalizing redisConnection s inputs answers with
  | nil =>
    obtain ⟨_, rfl, rfl⟩ := machine_ret run
    exact ⟨[], .nil s', rfl, List.nil_prefix⟩
  | cons item items ih =>
    cases item with
    | session connected => exact ih run
    | other reconnected => exact ih run
    | text reconnected text =>
      rcases machine_bind run with
        ⟨q, hrun, _⟩ | ⟨i₁, i₂, r, mid, a₁, a₂, rfl, rfl, hrun, hrest⟩
      · exact ⟨[⟨text, redisConnection || reconnected, answers, false⟩], .cut hrun rfl,
          by rw [List.flatMap_singleton], List.cons_prefix_cons.mpr ⟨rfl, List.nil_prefix⟩⟩
      · have hgoes : ∃ hs, Handlings serde checks mid hs s' ∧ a₂ = hs.flatMap Handled.answers ∧
            hs.map Handled.text <+: items.filterMap WsItem.message := by
          rcases r with (e | _) | _
          · exact ih hrest
          · obtain ⟨_, rfl, rfl⟩ := machine_ret hrest
            exact ⟨[], .nil s', rfl, List.nil_prefix⟩
          · exact ih hrest
        obtain ⟨hs, hhandlings, rfl, htexts⟩ := hgoes
        exact ⟨⟨text, redisConnection || reconnected, a₁, true⟩ :: hs, .cons hrun rfl hhandlings,
          by rw [List.flatMap_cons], List.cons_prefix_cons.mpr ⟨rfl, htexts⟩⟩

theorem handling_delivers {h : Handled} {s t : FeedStore} {inputs : List Env}
    {p : Proc Await Answer (Except Stop Unit)}
    (run : (alone serde checks).run ((handleWsMessage serde h.text h.connected).run, s) inputs =
      some ((p, t), h.answers)) (returned : h.finished = true → ∃ r, p = .ret r) :
    h.Delivers serde := by
  obtain ⟨g, obeys, hstreams⟩ := machine_obeys (fun g answers _ => Streams serde answers g)
    (fun g answers s q e hstreams allowed => hstreams.step _ allowed)
    (handleWsMessage_delivers h.text h.connected) ⟨[], rfl, rfl, rfl⟩ run
  obtain ⟨sent, unsent, hstored, hpublished, hwhole⟩ := hstreams.sent
  refine ⟨sent, unsent, hstored, hpublished, fun hoffline => ?_, fun honline hfinished => ?_⟩
  · have hhides := handleWsMessage_hides serde h.text false
    rw [hoffline] at run
    have hsilent := hhides.silent run
    have hnone : publishedStream h.answers = [] := by
      refine List.filterMap_eq_nil_iff.mpr fun a ha => ?_
      have hasks := hsilent a ha
      obtain ⟨q | _, a⟩ := a
      · rfl
      · cases hasks
    rw [hnone] at hpublished
    exact List.map_eq_nil_iff.mp hpublished.symm
  · obtain ⟨r, rfl⟩ := returned hfinished
    rw [honline] at obeys
    cases obeys with
    | ret hends => exact hwhole hends

theorem handling_ordered {text : String} {connected : Bool} {s t : FeedStore} {inputs : List Env}
    {p : Proc Await Answer (Except Stop Unit)} {answers : List (Σ q, Answer q)}
    (run : (alone serde checks).run ((handleWsMessage serde text connected).run, s) inputs =
      some ((p, t), answers)) : Ordered serde answers := by
  obtain ⟨_, _, _, hordered⟩ := machine_obeys
    (fun g answers _ => Streams serde answers g ∧ Ordered serde answers)
    (fun g answers s q e h allowed => ⟨h.1.step _ allowed, h.2.step _ h.1 allowed⟩)
    (handleWsMessage_delivers text connected) ⟨⟨[], rfl, rfl, rfl⟩, fun _ _ _ _ _ heq => by
      simp at heq⟩ run
  exact hordered

theorem handling_distinct {text : String} {connected : Bool} {s t : FeedStore} {inputs : List Env}
    {p : Proc Await Answer (Except Stop Unit)} {answers : List (Σ q, Answer q)}
    (run : (alone serde checks).run ((handleWsMessage serde text connected).run, s) inputs =
      some ((p, t), answers)) {old : List String} (nodup : old.Nodup)
    (known : ∀ id ∈ old, (s.db.tradeIds.lookup id).isSome) :
    (old ++ (storedStream answers).map Trade.id).Nodup ∧
      ∀ id ∈ old ++ (storedStream answers).map Trade.id, (t.db.tradeIds.lookup id).isSome := by
  have hinitial : Distinct old [] s.db (.loop (messageRows serde text) []) := by
    refine ⟨?_, ?_, trivial⟩
    · simpa [storedStream, Writer.pending] using nodup
    · simpa [storedStream, Writer.pending] using known
  obtain ⟨w, _, hdistinct, _⟩ := machine_obeys
    (fun w answers s => Distinct old answers s.db w ∧ w ≠ .reader)
    (fun w answers s q e h allowed =>
      ⟨h.1.perform h.2 allowed (perform_effect serde checks q e s), Writer.next_reader h.2 q _⟩)
    (handleWsMessage_obeys text connected) ⟨hinitial, fun h => by cases h⟩ run
  exact ⟨hdistinct.nodup.sublist (List.sublist_append_left _ _),
    fun id hid => hdistinct.known id (List.mem_append_left _ hid)⟩

theorem Handlings.delivers {s t : FeedStore} {hs : List Handled}
    (handlings : Handlings serde checks s hs t) : ∀ h ∈ hs, h.Delivers serde := by
  induction handlings with
  | nil s => exact fun _ h => by cases h
  | cut run unfinished =>
    intro h hmem
    rw [List.mem_singleton.mp hmem]
    exact handling_delivers run fun hfinished => by rw [unfinished] at hfinished; cases hfinished
  | cons run _ _ ih =>
    intro h hmem
    rcases List.mem_cons.mp hmem with rfl | hmem
    · exact handling_delivers run fun _ => ⟨_, rfl⟩
    · exact ih h hmem

theorem Handlings.ordered {s t : FeedStore} {hs : List Handled}
    (handlings : Handlings serde checks s hs t) : Ordered serde (hs.flatMap Handled.answers) := by
  induction handlings with
  | nil s => exact fun _ _ _ _ _ heq => by simp at heq
  | cut run _ =>
    rw [List.flatMap_singleton]
    exact handling_ordered run
  | cons run _ _ ih =>
    rw [List.flatMap_cons]
    exact (handling_ordered run).append ih

theorem Handlings.distinct {s t : FeedStore} {hs : List Handled}
    (handlings : Handlings serde checks s hs t) {old : List String} (nodup : old.Nodup)
    (known : ∀ id ∈ old, (s.db.tradeIds.lookup id).isSome) :
    (old ++ (storedStream (hs.flatMap Handled.answers)).map Trade.id).Nodup := by
  induction handlings generalizing old with
  | nil s => simpa [storedStream] using nodup
  | cut run _ =>
    rw [List.flatMap_singleton]
    exact (handling_distinct run nodup known).1
  | cons run _ _ ih =>
    obtain ⟨hnodup, hknown⟩ := handling_distinct run nodup known
    rw [List.flatMap_cons, storedStream_append, List.map_append, ← List.append_assoc]
    exact ih hnodup hknown

theorem Handlings.streams {s t : FeedStore} {hs : List Handled}
    (handlings : Handlings serde checks s hs t) :
    ∃ sent : List Trade, sent.Sublist (storedStream (hs.flatMap Handled.answers)) ∧
      publishedStream (hs.flatMap Handled.answers) = sent.map serde.tradeToString := by
  have hdelivers := handlings.delivers
  clear handlings
  induction hs with
  | nil => exact ⟨[], List.Sublist.refl _, rfl⟩
  | cons h hs ih =>
    obtain ⟨sent, hsub, hpublished⟩ := ih fun h' hmem => hdelivers h' (List.mem_cons_of_mem _ hmem)
    obtain ⟨first, unsent, hstored, hfirst, _⟩ := hdelivers h List.mem_cons_self
    refine ⟨first ++ sent, ?_, ?_⟩
    · rw [List.flatMap_cons, storedStream_append, hstored]
      exact (List.sublist_append_left _ _).append hsub
    · rw [List.flatMap_cons, publishedStream_append, hfirst, hpublished, List.map_append]

theorem mem_storedStream {answers : List (Σ q, Answer q)} {trade : Trade}
    (h : trade ∈ storedStream answers) : ∃ early batch n late,
      answers = early ++ (⟨.run (.storeTradeBatch batch), .ok n⟩ : Σ q, Answer q) :: late ∧
      trade ∈ batch.map Prod.fst := by
  obtain ⟨entry, hentry, rfl⟩ := List.mem_map.mp h
  obtain ⟨⟨q, a⟩, ha, hbatch⟩ := List.mem_flatMap.mp hentry
  obtain ⟨early, late, rfl⟩ := List.append_of_mem ha
  rcases q with (batch | _ | _ | _ | _ | _ | _) | _
  · cases a with
    | ok n => exact ⟨early, batch, n, late, rfl, List.mem_map_of_mem hbatch⟩
    | error e => cases hbatch
  all_goals cases hbatch

def Committed (serde : SerdeJson) (checks : Bool) (start : Proc Await Answer Unit × FeedStore)
    (inputs : List Env) (answers : List (Σ q, Answer q)) (trade : Trade) : Prop :=
  ∃ early batch n late is₁ env is₂ c c',
    answers = early ++ (⟨.run (.storeTradeBatch batch), .ok n⟩ : Σ q, Answer q) :: late ∧
    trade ∈ batch.map Prod.fst ∧ inputs = is₁ ++ env :: is₂ ∧
    (alone serde checks).run start is₁ = some (c, early) ∧
    (alone serde checks).step c env = some (c', [⟨.run (.storeTradeBatch batch), .ok n⟩]) ∧
    c'.2.db = c.2.db.storeTrades serde batch

theorem alone_step {c c' : Proc Await Answer Unit × FeedStore} {env : Env} {q : Await}
    {a : Answer q} (step : (alone serde checks).step c env = some (c', [⟨q, a⟩])) :
    Effect serde checks c.2.db q a c'.2.db := by
  obtain ⟨_ | ⟨q', k⟩, s⟩ := c
  · cases step
  · have heffect := perform_effect serde checks q' env s
    obtain ⟨hstate, hout⟩ := Prod.mk.inj (Option.some.inj step)
    rw [← hstate]
    obtain ⟨rfl, hanswer⟩ := Sigma.mk.inj (List.cons.inj hout).1
    rwa [eq_of_heq hanswer] at heffect

theorem committed_of_stored {start : Proc Await Answer Unit × FeedStore} {inputs : List Env}
    {end_ : Proc Await Answer Unit × FeedStore} {before after : List (Σ q, Answer q)}
    {trade : Trade} (run : (alone serde checks).run start inputs = some (end_, before ++ after))
    (stored : trade ∈ storedStream before) : Committed serde checks start inputs before trade := by
  obtain ⟨early, batch, n, late, rfl, htrade⟩ := mem_storedStream stored
  have hsingle : ∀ c env c' o, (@alone serde checks Unit).step c env = some (c', o) →
      o.length ≤ 1 := by
    rintro ⟨_ | ⟨q, k⟩, s⟩ env c' o hstep
    · cases hstep
    · cases hstep
      exact Nat.le_refl 1
  rw [List.append_assoc, List.cons_append] at run
  obtain ⟨is₁, env, is₂, c, c', rfl, hleft, hstep, _⟩ := Machine.run_split _ hsingle run
  refine ⟨early, batch, n, late, is₁, env, is₂, c, c', rfl, htrade, rfl, hleft, hstep, ?_⟩
  have heffect := alone_step hstep
  generalize c'.2.db = db' at heffect ⊢
  cases heffect with
  | stored batch => rfl

/-- For every run of the read loop over any items, from any store, whatever the database and Redis
answer: what was published is, in order, a part of what was stored, whose trades are all
different; a trade is published after its batch was committed; of each message's batch a prefix is
published; and the same texts without Redis lead through the same answers of the database to the
same tables. -/
theorem publication_follows_storage {items : List WsItem} {redisConnection : Bool}
    {s s' : FeedStore} {inputs : List Env} {p : Proc Await Answer Unit}
    {answers : List (Σ q, Answer q)}
    (run : (alone serde checks).run (wsTask serde items redisConnection, s) inputs =
      some ((p, s'), answers)) :
    (∃ sent : List Trade, sent.Sublist (storedStream answers) ∧
      publishedStream answers = sent.map serde.tradeToString) ∧
    ((storedStream answers).map Trade.id).Nodup ∧
    (∀ before channel payload r after,
      answers = before ++ (⟨.publish channel payload, r⟩ : Σ q, Answer q) :: after →
      channel = "trades" ∧ ∃ trade, payload = serde.tradeToString trade ∧
        Committed serde checks (wsTask serde items redisConnection, s) inputs before trade) ∧
    (∃ hs, Handlings serde checks s hs s' ∧ answers = hs.flatMap Handled.answers ∧
      hs.map Handled.text <+: items.filterMap WsItem.message ∧ ∀ h ∈ hs, h.Delivers serde) ∧
    ∃ p₀, (alone serde checks).run (wsTask serde (items.map WsItem.offline) false, s)
        (shownInputs asksRedis inputs answers) =
          some ((p₀, s'), shownAnswers asksRedis answers) ∧
      (p = .ret () → p₀ = .ret ()) := by
  obtain ⟨hs, hhandlings, hanswers, htexts⟩ := wsTask_handles run
  have hstreams := hhandlings.streams
  have hdistinct := hhandlings.distinct List.nodup_nil fun _ h => by cases h
  have hordered := hhandlings.ordered
  rw [← hanswers] at hstreams hdistinct hordered
  refine ⟨hstreams, hdistinct, ?_, ⟨hs, hhandlings, hanswers, htexts, hhandlings.delivers⟩, ?_⟩
  · intro before channel payload r after heq
    obtain ⟨hchannel, trade, hstored, hpayload⟩ := hordered before channel payload r after heq
    exact ⟨hchannel, trade, hpayload, committed_of_stored (heq ▸ run) hstored⟩
  · have hkeeps : ∀ q env (s : FeedStore), asksRedis q = true →
        (perform serde checks q env s).2 = s := by
      rintro (q | _) env s hasks
      · cases hasks
      · rfl
    obtain ⟨p₀, hrun, hhides⟩ := (wsTask_hides serde items redisConnection).run hkeeps run
    refine ⟨p₀, hrun, ?_⟩
    rintro rfl
    cases hhides with
    | ret _ => rfl

def droppedItems : List WsItem := [.session true, .text false tradeText, .text false tradeText]

def droppedInputs : List Env :=
  List.replicate 9 .fine ++ [⟨[], .error "connection reset by peer"⟩]

theorem published_before_the_drop : ∃ s' answers,
    (alone tradeJson true).run (wsTask tradeJson droppedItems false, .first) droppedInputs =
      some ((.ret (), s'), answers) ∧
    (publishedStream answers).length = 1 ∧ (storedStream answers).length = 2 ∧
    ∃ sent : List Trade, sent.Sublist (storedStream answers) ∧
      publishedStream answers = sent.map tradeJson.tradeToString := by
  have hrun : ((alone tradeJson true).run (wsTask tradeJson droppedItems false, .first)
      droppedInputs).bind (fun r => match r.1.1 with
        | .ret _ => some ((publishedStream r.2).length, (storedStream r.2).length)
        | .await _ _ => none) = some (1, 2) := by
    decide +kernel
  obtain ⟨⟨⟨p, s'⟩, answers⟩, run, hvalues⟩ := Option.bind_eq_some_iff.mp hrun
  cases p with
  | await q k => cases hvalues
  | ret r =>
    obtain ⟨hpublished, hstored⟩ := Prod.mk.inj (Option.some.inj hvalues)
    exact ⟨s', answers, run, hpublished, hstored, (publication_follows_storage run).1⟩

end Runs

end RustExperiments.TradeFeed
