/- module: RustExperiments/TradeFeed/Handler
   digest: The message handler and the HTTP handlers as a system of clients of the worker. -/

import RustExperiments.Lib.Clients
import RustExperiments.TradeFeed.Store

set_option autoImplicit false
set_option relaxedAutoImplicit false

namespace RustExperiments.TradeFeed

open RustExperiments.Lib

inductive Await where
  | run (q : DbRequest)
  | publish (channel payload : String)
  deriving DecidableEq, Repr

/-- Errors are kept as the text of their `to_string()`. -/
abbrev Answer : Await → Type
  | .run q => Except String q.Response
  | .publish _ _ => Except String Unit

inductive Stop where
  | error (message : String)
  | panic
  deriving DecidableEq, Repr

inductive Outcome where
  | handled (r : Except Stop Unit)
  | response (status : ℕ) (body : String)

abbrev Async (α : Type) := ExceptT Stop (Proc Await Answer) α

/-- `redb.run(q).await?` -/
def run (q : DbRequest) : Async q.Response :=
  ExceptT.mk (.await (.run q) fun
    | .ok v => .ret (.ok v)
    | .error e => .ret (.error (.error e)))

/-- `error_string.contains(sub)` -/
def contains (s sub : String) : Bool := decide (sub.toList <:+: s.toList)

/-- `redis_connection.publish(channel, payload).await`, with the errors told apart. -/
def publish (channel payload : String) : Async Unit :=
  ExceptT.mk (.await (.publish channel payload) fun
    | .ok _ => .ret (.ok ())
    | .error e =>
      if contains e "connection" || contains e "closed" || contains e "refused" ||
          contains e "broken pipe" then
        .ret (.error (.error s!"Redis connection lost: {e}"))
      else .ret (.error (.error e)))

def debugWsMessages : Bool := true

/-- `text.is_char_boundary(n)` -/
def isCharBoundary : List Char → ℕ → Bool
  | _, 0 => true
  | [], _ + 1 => false
  | c :: cs, n + 1 => decide (c.utf8Size ≤ n + 1) && isCharBoundary cs (n + 1 - c.utf8Size)

/-- Only the slice `&text[..500]` can go wrong here; everything else is printed. -/
def logMessageFormat (text : String) : Async Unit :=
  if !debugWsMessages then pure ()
  else if text.utf8ByteSize > 500 then
    if isCharBoundary text.toList 500 then pure () else throw .panic
  else pure ()

section WsMessage

variable (serde : SerdeJson)

/-- The loop over the rows of a trade message, with the trades collected so far. -/
def handleRows (pair : String) : List (List (JsonValue serde.F64)) → List (Trade × ℕ) →
    Async (List (Trade × ℕ))
  | [], trades => pure trades
  | (c0 :: c1 :: c2 :: c3 :: c4 :: rest) :: rows, trades => do
    let price := c0.toString serde.f64ToString
    let volume := c1.toString serde.f64ToString
    let timestamp := c2.toString serde.f64ToString
    let side := c3.toString serde.f64ToString
    let orderType := c4.toString serde.f64ToString
    let misc := (rest.head?.map (JsonValue.toString serde.f64ToString)).getD ""
    let index ← run .getNextTradeCounter
    let tradeId := s!"{index}-{price}"
    let idExists ← run (.checkIdExists tradeId)
    if idExists then handleRows pair rows trades
    else do
      run (.storeIdWithIndex tradeId index)
      let trade := ⟨tradeId, price, volume, timestamp, side, orderType, misc, pair⟩
      handleRows pair rows (trades ++ [(trade, index)])
  -- Fewer than five fields: skipped with a warning.
  | _ :: rows, trades => handleRows pair rows trades

variable {serde} in
theorem handleRows_short (pair : String) {row : List (JsonValue serde.F64)} (h : row.length < 5)
    (rows : List (List (JsonValue serde.F64))) (trades : List (Trade × ℕ)) :
    handleRows serde pair (row :: rows) trades = handleRows serde pair rows trades := by
  rcases row with _ | ⟨c0, _ | ⟨c1, _ | ⟨c2, _ | ⟨c3, _ | ⟨c4, rest⟩⟩⟩⟩⟩
  · rfl
  · rfl
  · rfl
  · rfl
  · rfl
  · simp only [List.length_cons] at h
    omega

theorem row_cases {α : Type} (row : List α) :
    row.length < 5 ∨ ∃ c0 c1 c2 c3 c4 rest, row = c0 :: c1 :: c2 :: c3 :: c4 :: rest := by
  rcases row with _ | ⟨c0, _ | ⟨c1, _ | ⟨c2, _ | ⟨c3, _ | ⟨c4, rest⟩⟩⟩⟩⟩
  · exact Or.inl (by simp)
  · exact Or.inl (by simp)
  · exact Or.inl (by simp)
  · exact Or.inl (by simp)
  · exact Or.inl (by simp)
  · exact Or.inr ⟨c0, c1, c2, c3, c4, rest, rfl⟩

def publishTrades : List (Trade × ℕ) → Async Unit
  | [] => pure ()
  | (trade, _) :: trades => do
    publish "trades" (serde.tradeToString trade)
    publishTrades trades

def handleTradeMessage (rows : List (List (JsonValue serde.F64))) (channelName pair : String)
    (redisConnection : Bool) : Async Unit :=
  if channelName = "trade" then do
    let trades ← handleRows serde pair rows []
    if trades.isEmpty then pure ()
    else do
      let _count ← run (.storeTradeBatch trades)
      if redisConnection then publishTrades serde trades else pure ()
  else pure ()

/-- The inspection of an array that is no trade message; its indices are the risk. -/
def inspectArray {Number : Type} (arr : List (Value Number)) : Async Unit :=
  if arr.length ≥ 4 then
    match arr[2]? with
    | none => throw .panic
    | some (Value.string channelName) =>
      if channelName = "trade" then
        match arr[1]? with
        | none => throw .panic
        | some _ => pure ()
      else pure ()
    | some _ => pure ()
  else pure ()

def handleWsMessage (text : String) (redisConnection : Bool) : Async Unit :=
  match serde.fromStr text with
  | .ok (.tradeMessage _ rows channelName pair) =>
    handleTradeMessage serde rows channelName pair redisConnection
  | .ok (.eventMessage .unknown) => logMessageFormat text
  | .ok (.eventMessage _) => pure ()
  | .ok (.generic (.array arr)) => do
    logMessageFormat text
    inspectArray arr
  | .ok (.generic (.object _)) => logMessageFormat text
  | .ok (.generic _) => pure ()
  | .error e => do
    logMessageFormat text
    throw (.error s!"Invalid WebSocket message format: {e}")

end WsMessage

section Http

variable (serde : SerdeJson)

def getTradesCount : Proc Await Answer Outcome :=
  .await (.run .getTotalTradesCount) fun
    | .ok count => .ret (.response 200 (toString (count : ℕ)))
    | .error e => .ret (.response 500 s!"Error: {e}")

def maxBatchSize : ℕ := 1000

def getTrades (startIndex limit : Option ℕ) : Proc Await Answer Outcome :=
  let startIndex := startIndex.getD 1
  let requestedLimit := limit.getD 100
  let limit := min requestedLimit maxBatchSize
  .await (.run (.getTradesByRange startIndex limit)) fun
    | .ok trades => .ret (.response 200 (serde.tradesToString trades))
    | .error e => .ret (.response 500 s!"Database error: {e}")

end Http

/-- The committed tables, and whether the worker thread is alive: a panic in a handler ends it,
and with it the receiving end of the queue. -/
abbrev FeedStore := Service TradeDb

/-- What neither the code nor the store determines: the outcomes of the storage operations and
of a publication. -/
structure Env where
  faults : Faults
  published : Except String Unit

def Env.fine : Env := ⟨[], .ok ()⟩

inductive Task where
  | message (text : String) (redisConnection : Bool)
  | tradesCount
  | trades (startIndex limit : Option ℕ)
  deriving DecidableEq, Repr

section Feed

variable (serde : SerdeJson) (checks : Bool)

def perform : (q : Await) → Env → FeedStore → Answer q × FeedStore
  | .run q, env, s => s.serve (q.handle serde checks) env.faults
  | .publish _ _, env, s => (env.published, s)

/-- The program starts on what is committed; it runs if its first transaction succeeds. -/
def reboot (env : Env) (s : FeedStore) : FeedStore :=
  match createTables s.db env.faults with
  | (.ok _, db, _) => ⟨db, true⟩
  | (.error _, db, _) => ⟨db, false⟩

def Task.start : Task → Proc Await Answer Outcome
  | .message text redisConnection => do
    let r ← (handleWsMessage serde text redisConnection).run
    pure (.handled r)
  | .tradesCount => getTradesCount
  | .trades startIndex limit => getTrades serde startIndex limit

def feed : Clients Await Answer Outcome Task FeedStore Env where
  start := Task.start serde
  perform := perform serde checks
  reboot := reboot

/-- The store of a first start on an empty database. -/
def FeedStore.first : FeedStore :=
  reboot .fine ⟨⟨∅, ∅, ∅⟩, false⟩

/-- Everything that an answer says about the tables before and after it. An error says that
nothing changed. -/
inductive Effect (db : TradeDb) : (q : Await) → Answer q → TradeDb → Prop where
  | failed (q : DbRequest) (e : String) : Effect db (.run q) (.error e) db
  | counted (new : ℕ) (advanced : u64Add checks db.total 1 = some new) :
    Effect db (.run .getNextTradeCounter) (.ok new) (db.setTotal new)
  | checked (id : String) :
    Effect db (.run (.checkIdExists id)) (.ok (db.tradeIds.lookup id).isSome) db
  | reserved (id : String) (index : ℕ) :
    Effect db (.run (.storeIdWithIndex id index)) (.ok ()) (db.storeId id index)
  | stored (batch : List (Trade × ℕ)) :
    Effect db (.run (.storeTradeBatch batch)) (.ok batch.length) (db.storeTrades serde batch)
  | total : Effect db (.run .getTotalTradesCount) (.ok db.total) db
  | recent (n : ℕ) (trades : List Trade) : Effect db (.run (.getRecentTrades n)) (.ok trades) db
  | range (startIndex limit : ℕ) (trades : List Trade) :
    Effect db (.run (.getTradesByRange startIndex limit)) (.ok trades) db
  | published (channel payload : String) (r : Except String Unit) :
    Effect db (.publish channel payload) r db

end Feed

section Effect

open Session

variable {serde : SerdeJson} {checks : Bool}

theorem handle_effect (q : DbRequest) {db db' : TradeDb} {r : Except Halt q.Response}
    (h : (q.handle serde checks).Ends db r db') :
    match r with
    | .ok v => Effect serde checks db (.run q) (.ok v) db'
    | .error _ => db' = db := by
  cases q with
  | storeTradeBatch batch =>
    rcases storeTradeBatch_ends h with ⟨rfl, e, rfl⟩ | ⟨rfl, rfl⟩
    · rfl
    · exact .stored batch
  | getTotalTradesCount =>
    rcases getTotalTradesCount_ends h with ⟨rfl, e, rfl⟩ | ⟨rfl, rfl⟩
    · rfl
    · exact .total
  | getRecentTrades n =>
    rcases getRecentTrades_ends h with ⟨rfl, e, rfl⟩ | ⟨rfl, rfl⟩
    · rfl
    · exact .recent n _
  | getTradesByRange startIndex limit =>
    obtain ⟨rfl, _⟩ := getTradesByRange_ends h
    cases r with
    | error halt => rfl
    | ok trades => exact .range startIndex limit trades
  | getNextTradeCounter =>
    rcases getNextTradeCounter_ends h with ⟨rfl, e, rfl⟩ | ⟨rfl, _, rfl⟩ | ⟨new, hadd, rfl, rfl⟩
    · rfl
    · rfl
    · exact .counted new hadd
  | checkIdExists id =>
    rcases checkIdExists_ends h with ⟨rfl, e, rfl⟩ | ⟨rfl, rfl⟩
    · rfl
    · exact .checked id
  | storeIdWithIndex id index =>
    rcases storeIdWithIndex_ends h with ⟨rfl, e, rfl⟩ | ⟨rfl, rfl⟩
    · rfl
    · exact .reserved id index

theorem perform_effect (serde : SerdeJson) (checks : Bool) (q : Await) (env : Env) (s : FeedStore) :
    Effect serde checks s.db q (perform serde checks q env s).1
      (perform serde checks q env s).2.db := by
  cases q with
  | publish channel payload => exact .published channel payload _
  | run q =>
    let t := s.serve (q.handle serde checks) env.faults
    change Effect serde checks s.db (.run q) t.1 t.2.db
    rcases Service.serve_ends (q.handle serde checks) env.faults s with
      ⟨v, hok, hends⟩ | ⟨message, herror, hsame | ⟨halt, hends⟩⟩
    · rw [show t.1 = .ok v from hok]
      exact handle_effect q hends
    · rw [show t.1 = .error message from herror, show t.2 = s from hsame]
      exact .failed q message
    · have hdb : t.2.db = s.db := handle_effect q hends
      rw [show t.1 = .error message from herror, hdb]
      exact .failed q message

theorem reboot_cases (env : Env) (s : FeedStore) :
    (reboot env s).db = s.db ∨
      s.db.tradesMeta.lookup "total" = none ∧ (reboot env s).db = s.db.setTotal 0 := by
  have h := createTables_ends (ends_run createTables s.db env.faults)
  have hdb : (reboot env s).db = (createTables s.db env.faults).2.1 := by
    rw [reboot]
    rcases createTables s.db env.faults with ⟨r | v, db, rest⟩ <;> rfl
  rwa [hdb]

theorem first_db : FeedStore.first = ⟨(⟨∅, ∅, ∅⟩ : TradeDb).setTotal 0, true⟩ := by
  simp [FeedStore.first, Env.fine, reboot, createTables, bind, Session.begin, Session.op, Session.commit,
    TradeDb.setTotal]

end Effect

end RustExperiments.TradeFeed
