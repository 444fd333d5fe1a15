/- module: RustExperiments/TradeFeed/Writer
   digest: What a message says, and the protocol that its handler keeps with the worker. -/

import RustExperiments.TradeFeed.Handler

set_option autoImplicit false
set_option relaxedAutoImplicit false

namespace RustExperiments.TradeFeed

open RustExperiments.Lib RustExperiments.Lib.Proc

abbrev tradeIdOf (index : ℕ) (price : String) : String := s!"{index}-{price}"

/-- A row of a trade message with its pair: a trade without an index. -/
structure Row where
  price : String
  volume : String
  timestamp : String
  side : String
  orderType : String
  misc : String
  pair : String
  deriving DecidableEq, Repr

def Row.trade (row : Row) (index : ℕ) : Trade :=
  ⟨tradeIdOf index row.price, row.price, row.volume, row.timestamp, row.side, row.orderType,
    row.misc, row.pair⟩

section Rows

variable (serde : SerdeJson)

/-- A row needs at least five cells. -/
def rowOf (pair : String) : List (JsonValue serde.F64) → Option Row
  | c0 :: c1 :: c2 :: c3 :: c4 :: rest => some
    { price := c0.toString serde.f64ToString
      volume := c1.toString serde.f64ToString
      timestamp := c2.toString serde.f64ToString
      side := c3.toString serde.f64ToString
      orderType := c4.toString serde.f64ToString
      misc := (rest.head?.map (JsonValue.toString serde.f64ToString)).getD ""
      pair := pair }
  | _ => none

variable {serde} in
theorem rowOf_short (pair : String) {row : List (JsonValue serde.F64)} (h : row.length < 5) :
    rowOf serde pair row = none := by
  unfold rowOf
  split
  · simp only [List.length_cons] at h
    omega
  · rfl

/-- The rows of a trade message on the channel `trade`; any other text has none. -/
def messageRows (text : String) : List Row :=
  match serde.fromStr text with
  | .ok (.tradeMessage _ rows channelName pair) =>
    if channelName = "trade" then rows.filterMap (rowOf serde pair) else []
  | _ => []

end Rows

/-- How far a task has come. `todo` holds the rows still to be looked at, `batch` the trades
whose identifiers are stored and that wait for their own transaction. -/
inductive Writer where
  | loop (todo : List Row) (batch : List (Trade × ℕ))
  | counted (row : Row) (index : ℕ) (todo : List Row) (batch : List (Trade × ℕ))
  | checked (row : Row) (index : ℕ) (todo : List Row) (batch : List (Trade × ℕ))
  | publishing (trades : List Trade)
  /-- an answer was an error -/
  | halted (w : Writer)
  | reader

def Await.IsRead : Await → Prop
  | .run .getTotalTradesCount => True
  | .run (.getTradesByRange _ _) => True
  | _ => False

section Protocol

variable (serde : SerdeJson)

/-- A writer asks for exactly one thing. -/
def Writer.allows : Writer → Await → Prop
  | .loop (_ :: _) _, q => q = .run .getNextTradeCounter
  | .loop [] batch, q => batch ≠ [] ∧ q = .run (.storeTradeBatch batch)
  | .counted row index _ _, q => q = .run (.checkIdExists (tradeIdOf index row.price))
  | .checked row index _ _, q => q = .run (.storeIdWithIndex (tradeIdOf index row.price) index)
  | .publishing (trade :: _), q => q = .publish "trades" (serde.tradeToString trade)
  | .publishing [], _ => False
  | .halted _, _ => False
  | .reader, q => q.IsRead

def Writer.next : Writer → (q : Await) → Answer q → Writer
  | .loop (row :: todo) batch, .run .getNextTradeCounter, .ok index =>
    .counted row index todo batch
  | .loop [] _, .run (.storeTradeBatch batch), .ok _ => .publishing (batch.map Prod.fst)
  | .counted row index todo batch, .run (.checkIdExists _), .ok false =>
    .checked row index todo batch
  | .counted _ _ todo batch, .run (.checkIdExists _), .ok true => .loop todo batch
  | .checked row index todo batch, .run (.storeIdWithIndex _ _), .ok _ =>
    .loop todo (batch ++ [(row.trade index, index)])
  | .publishing (_ :: trades), .publish _ _, .ok _ => .publishing trades
  | .reader, _, _ => .reader
  | w, _, _ => .halted w

def Writer.Ended : Writer → Prop
  | .loop [] [] => True
  | .publishing _ => True
  | .halted _ => True
  | .reader => True
  | _ => False

def writerProtocol : Protocol Await Answer Writer where
  allows := Writer.allows serde
  next := Writer.next

def Writer.start : Task → Writer
  | .message text _ => .loop (messageRows serde text) []
  | .tradesCount => .reader
  | .trades _ _ => .reader

end Protocol

section Inversion

variable {serde : SerdeJson} {w : Writer}

theorem Writer.allows_counter (h : w.allows serde (.run .getNextTradeCounter)) :
    ∃ row todo batch, w = .loop (row :: todo) batch := by
  rcases w with ⟨_ | ⟨row, todo⟩, batch⟩ | _ | _ | ⟨_ | _⟩ | _ | _
  · cases h.2
  · exact ⟨row, todo, batch, rfl⟩
  all_goals cases h

theorem Writer.allows_check {id : String} (h : w.allows serde (.run (.checkIdExists id))) :
    ∃ row index todo batch, w = .counted row index todo batch ∧ id = tradeIdOf index row.price := by
  rcases w with ⟨_ | _, _⟩ | ⟨row, index, todo, batch⟩ | _ | ⟨_ | _⟩ | _ | _
  · cases h.2
  · cases h
  · cases h
    exact ⟨row, index, todo, batch, rfl, rfl⟩
  all_goals cases h

theorem Writer.allows_reserve {id : String} {index : ℕ}
    (h : w.allows serde (.run (.storeIdWithIndex id index))) :
    ∃ row todo batch, w = .checked row index todo batch ∧ id = tradeIdOf index row.price := by
  rcases w with ⟨_ | _, _⟩ | _ | ⟨row, index, todo, batch⟩ | ⟨_ | _⟩ | _ | _
  · cases h.2
  · cases h
  · cases h
  · cases h
    exact ⟨row, todo, batch, rfl, rfl⟩
  all_goals cases h

theorem Writer.allows_batch {batch : List (Trade × ℕ)}
    (h : w.allows serde (.run (.storeTradeBatch batch))) : w = .loop [] batch ∧ batch ≠ [] := by
  rcases w with ⟨_ | _, _⟩ | _ | _ | ⟨_ | _⟩ | _ | _
  · cases h.2
    exact ⟨rfl, h.1⟩
  all_goals cases h

theorem Writer.allows_publish {channel payload : String}
    (h : w.allows serde (.publish channel payload)) :
    ∃ trade trades, w = .publishing (trade :: trades) ∧ channel = "trades" ∧
      payload = serde.tradeToString trade := by
  rcases w with ⟨_ | _, _⟩ | _ | _ | ⟨_ | ⟨trade, trades⟩⟩ | _ | _
  · cases h.2
  · cases h
  · cases h
  · cases h
  · cases h
  · cases h
    exact ⟨trade, trades, rfl, rfl, rfl⟩
  all_goals cases h

theorem Writer.allows_read {q : Await} (read : q.IsRead) (h : w.allows serde q) : w = .reader := by
  rcases w with ⟨_ | _, _⟩ | _ | _ | ⟨_ | _⟩ | _ | _
  · obtain ⟨_, rfl⟩ := h
    cases read
  · obtain rfl := h
    cases read
  · obtain rfl := h
    cases read
  · obtain rfl := h
    cases read
  · cases h
  · obtain rfl := h
    cases read
  · cases h
  · rfl

theorem Writer.not_allows_recent {n : ℕ} : ¬ w.allows serde (.run (.getRecentTrades n)) := by
  intro h
  rcases w with ⟨_ | _, _⟩ | _ | _ | ⟨_ | _⟩ | _ | _
  · cases h.2
  all_goals cases h

theorem Writer.next_error {w : Writer} (h : w ≠ .reader) {q : DbRequest} (e : String) :
    w.next (.run q) (.error e) = .halted w := by
  rcases w with ⟨_ | _, _⟩ | _ | _ | ⟨_ | _⟩ | _ | _ <;> first | exact absurd rfl h | (cases q <;> rfl)

theorem Writer.next_reader {w : Writer} (h : w ≠ .reader) (q : Await) (a : Answer q) :
    w.next q a ≠ .reader := by
  intro heq
  unfold Writer.next at heq
  split at heq
  · cases heq
  · cases heq
  · cases heq
  · cases heq
  · cases heq
  · cases heq
  · exact h rfl
  · cases heq

end Inversion

section Moves

/-- All that an answer does to a writer and to the tables, with what it says about them. -/
inductive Writer.Moves (serde : SerdeJson) (checks : Bool) (db : TradeDb) :
    Writer → (q : Await) → Answer q → TradeDb → Writer → Prop where
  | failed (w : Writer) (q : DbRequest) (e : String) :
    Moves serde checks db w (.run q) (.error e) db (.halted w)
  | counted (row : Row) (todo : List Row) (batch : List (Trade × ℕ)) (new : ℕ)
      (advanced : u64Add checks db.total 1 = some new) :
    Moves serde checks db (.loop (row :: todo) batch) (.run .getNextTradeCounter) (.ok new)
      (db.setTotal new) (.counted row new todo batch)
  | known (row : Row) (index : ℕ) (todo : List Row) (batch : List (Trade × ℕ))
      (found : (db.tradeIds.lookup (tradeIdOf index row.price)).isSome = true) :
    Moves serde checks db (.counted row index todo batch)
      (.run (.checkIdExists (tradeIdOf index row.price))) (.ok true) db (.loop todo batch)
  | fresh (row : Row) (index : ℕ) (todo : List Row) (batch : List (Trade × ℕ))
      (absent : db.tradeIds.lookup (tradeIdOf index row.price) = none) :
    Moves serde checks db (.counted row index todo batch)
      (.run (.checkIdExists (tradeIdOf index row.price))) (.ok false) db
      (.checked row index todo batch)
  | reserved (row : Row) (index : ℕ) (todo : List Row) (batch : List (Trade × ℕ)) :
    Moves serde checks db (.checked row index todo batch)
      (.run (.storeIdWithIndex (tradeIdOf index row.price) index)) (.ok ())
      (db.storeId (tradeIdOf index row.price) index)
      (.loop todo (batch ++ [(row.trade index, index)]))
  | stored (batch : List (Trade × ℕ)) (nonempty : batch ≠ []) :
    Moves serde checks db (.loop [] batch) (.run (.storeTradeBatch batch)) (.ok batch.length)
      (db.storeTrades serde batch) (.publishing (batch.map Prod.fst))
  | published (trade : Trade) (trades : List Trade) :
    Moves serde checks db (.publishing (trade :: trades))
      (.publish "trades" (serde.tradeToString trade)) (.ok ()) db (.publishing trades)
  | unpublished (trade : Trade) (trades : List Trade) (e : String) :
    Moves serde checks db (.publishing (trade :: trades))
      (.publish "trades" (serde.tradeToString trade)) (.error e) db
      (.halted (.publishing (trade :: trades)))

/-- The one case analysis of the answers to a writer that is no reader. -/
theorem Writer.moves {serde : SerdeJson} {checks : Bool} {db db' : TradeDb} {w : Writer} {q : Await}
    {a : Answer q} (writes : w ≠ .reader) (allowed : w.allows serde q)
    (effect : Effect serde checks db q a db') : w.Moves serde checks db q a db' (w.next q a) := by
  cases effect with
  | failed q e =>
    rw [Writer.next_error writes]
    exact .failed w q e
  | counted new advanced =>
    obtain ⟨row, todo, batch, rfl⟩ := Writer.allows_counter allowed
    exact .counted row todo batch new advanced
  | checked id =>
    obtain ⟨row, index, todo, batch, rfl, rfl⟩ := Writer.allows_check allowed
    cases hlookup : db.tradeIds.lookup (tradeIdOf index row.price) with
    | some i => exact .known row index todo batch (by rw [hlookup]; rfl)
    | none => exact .fresh row index todo batch hlookup
  | reserved id index =>
    obtain ⟨row, todo, batch, rfl, rfl⟩ := Writer.allows_reserve allowed
    exact .reserved row index todo batch
  | stored batch =>
    obtain ⟨rfl, hne⟩ := Writer.allows_batch allowed
    exact .stored batch hne
  | total => exact absurd (Writer.allows_read (by trivial) allowed) writes
  | recent n trades => exact absurd allowed Writer.not_allows_recent
  | range startIndex limit trades => exact absurd (Writer.allows_read (by trivial) allowed) writes
  | published channel payload r =>
    obtain ⟨trade, trades, rfl, rfl, rfl⟩ := Writer.allows_publish allowed
    cases r with
    | ok _ => exact .published trade trades
    | error e => exact .unpublished trade trades e

end Moves

section Obeys

variable {serde : SerdeJson} {α β : Type}

theorem obeys_run {q : DbRequest} {f : q.Response → Async β} {w : Writer}
    {post : Writer → Except Stop β → Prop} (allowed : w.allows serde (.run q))
    (ok : ∀ v, (f v).run.Obeys (writerProtocol serde) post (w.next (.run q) (.ok v)))
    (error : ∀ e, post (w.next (.run q) (.error e)) (.error (.error e))) :
    (TradeFeed.run q >>= f).run.Obeys (writerProtocol serde) post w := by
  refine .await allowed fun a => ?_
  cases a with
  | ok v => exact ok v
  | error e => exact .ret (error e)

theorem obeys_pure {a : α} {w : Writer} {post : Writer → Except Stop α → Prop}
    (h : post w (.ok a)) : (pure a : Async α).run.Obeys (writerProtocol serde) post w := .ret h

def Writer.AfterRows (w : Writer) : Except Stop (List (Trade × ℕ)) → Prop
  | .ok batch => w = .loop [] batch
  | .error _ => w.Ended

theorem handleRows_obeys (pair : String) (rows : List (List (JsonValue serde.F64)))
    (trades : List (Trade × ℕ)) :
    (handleRows serde pair rows trades).run.Obeys (writerProtocol serde)
      Writer.AfterRows (.loop (rows.filterMap (rowOf serde pair)) trades) := by
  induction rows generalizing trades with
  | nil => exact obeys_pure rfl
  | cons row rows ih =>
    rcases row_cases row with hshort | ⟨c0, c1, c2, c3, c4, rest, rfl⟩
    · rw [handleRows_short pair hshort, List.filterMap_cons_none (rowOf_short pair hshort)]
      exact ih trades
    refine obeys_run rfl (fun index => ?_) (fun _ => trivial)
    refine obeys_run rfl (fun idExists => ?_) (fun _ => trivial)
    cases idExists with
    | true => exact ih trades
    | false =>
      refine obeys_run rfl (fun _ => ?_) (fun _ => trivial)
      exact ih _

theorem publish_obeys (trade : Trade) (trades : List Trade) :
    (publish "trades" (serde.tradeToString trade)).run.Obeys (writerProtocol serde)
      (fun w r => w.Ended ∧ ∀ v, r = .ok v → w = .publishing trades)
      (.publishing (trade :: trades)) := by
  refine .await rfl fun a => ?_
  cases a with
  | ok _ => exact .ret ⟨trivial, fun _ _ => rfl⟩
  | error e =>
    simp only []
    split_ifs
    · exact .ret ⟨trivial, nofun⟩
    · exact .ret ⟨trivial, nofun⟩

theorem publishTrades_obeys (batch : List (Trade × ℕ)) :
    (publishTrades serde batch).run.Obeys (writerProtocol serde) (fun w _ => w.Ended)
      (.publishing (batch.map Prod.fst)) := by
  induction batch with
  | nil => exact obeys_pure trivial
  | cons entry batch ih =>
    refine (publish_obeys _ _).except_bind (fun w v hw => ?_) (fun _ _ hw => hw.1)
    rw [hw.2 v rfl]
    exact ih

theorem logMessageFormat_obeys (text : String) (w : Writer) :
    (logMessageFormat text).run.Obeys (writerProtocol serde) (fun w' _ => w' = w) w := by
  unfold logMessageFormat
  split_ifs
  · exact .ret rfl
  · exact .ret rfl
  · exact .ret rfl
  · exact .ret rfl

theorem inspectArray_obeys {Number : Type} (arr : List (Value Number)) (w : Writer) :
    (inspectArray arr).run.Obeys (writerProtocol serde) (fun w' _ => w' = w) w := by
  unfold inspectArray
  repeat' split
  all_goals exact .ret rfl

theorem handleTradeMessage_obeys (rows : List (List (JsonValue serde.F64)))
    (channelName pair : String) (redisConnection : Bool) :
    (handleTradeMessage serde rows channelName pair redisConnection).run.Obeys
      (writerProtocol serde) (fun w _ => w.Ended)
      (.loop (if channelName = "trade" then rows.filterMap (rowOf serde pair) else []) []) := by
  unfold handleTradeMessage
  by_cases hchannel : channelName = "trade"
  · rw [if_pos hchannel, if_pos hchannel]
    refine (handleRows_obeys pair rows []).except_bind (fun w batch hw => ?_) (fun _ _ hw => hw)
    obtain rfl : w = .loop [] batch := hw
    rcases batch with _ | ⟨entry, batch⟩
    · exact obeys_pure trivial
    · refine obeys_run ⟨List.cons_ne_nil _ _, rfl⟩ (fun count => ?_) (fun _ => trivial)
      cases redisConnection with
      | true => exact publishTrades_obeys (entry :: batch)
      | false => exact obeys_pure trivial
  · rw [if_neg hchannel, if_neg hchannel]
    exact obeys_pure trivial

theorem log_obeys (text : String) {w : Writer} (ended : w.Ended) :
    (logMessageFormat text).run.Obeys (writerProtocol serde) (fun w _ => w.Ended) w :=
  (logMessageFormat_obeys text w).mono fun _ _ hw => hw ▸ ended

theorem handleWsMessage_obeys (text : String) (redisConnection : Bool) :
    (handleWsMessage serde text redisConnection).run.Obeys (writerProtocol serde)
      (fun w _ => w.Ended) (.loop (messageRows serde text) []) := by
  unfold handleWsMessage messageRows
  rcases serde.fromStr text with e | message
  · refine (logMessageFormat_obeys text _).except_bind (fun w _ hw => ?_) (fun w _ hw => hw ▸ trivial)
    exact .ret (hw ▸ trivial)
  cases message with
  | tradeMessage channelId rows channelName pair => exact handleTradeMessage_obeys _ _ _ _
  | eventMessage event =>
    cases event with
    | unknown => exact log_obeys text trivial
    | _ => exact obeys_pure trivial
  | generic value =>
    cases value with
    | array arr =>
      refine (logMessageFormat_obeys text _).except_bind (fun w _ hw => ?_)
        (fun w _ hw => hw ▸ trivial)
      exact (inspectArray_obeys arr w).mono fun _ _ hw' => hw' ▸ hw ▸ trivial
    | object fields => exact log_obeys text trivial
    | _ => exact obeys_pure trivial

theorem task_obeys (serde : SerdeJson) (task : Task) :
    (task.start serde).Obeys (writerProtocol serde) (fun w _ => w.Ended) (.start serde task) := by
  cases task with
  | message text redisConnection =>
    exact (handleWsMessage_obeys text redisConnection).bind fun _ _ hw => .ret hw
  | tradesCount =>
    refine .await trivial fun a => ?_
    cases a <;> exact .ret trivial
  | trades startIndex limit =>
    refine .await trivial fun a => ?_
    cases a <;> exact .ret trivial

end Obeys

end RustExperiments.TradeFeed
