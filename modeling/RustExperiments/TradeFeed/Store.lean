/- module: RustExperiments/TradeFeed/Store
   digest: The three tables of the trade feed and the requests that the database worker handles. -/

import RustExperiments.Lib.Session
import RustExperiments.Lib.Table
import RustExperiments.Lib.U64
import RustExperiments.TradeFeed.Message

set_option autoImplicit false
set_option relaxedAutoImplicit false

namespace RustExperiments.TradeFeed

open RustExperiments.Lib

def maxPageSize : ℕ := 100

/-- The committed tables; `main` creates them before it starts the worker. -/
structure TradeDb where
  trades : Table ℕ String
  tradeIds : Table String ℕ
  tradesMeta : Table String ℕ

/-- `trades_meta.get("total")?.map(|v| v.value()).unwrap_or(0)`. -/
def TradeDb.total (db : TradeDb) : ℕ := (db.tradesMeta.lookup "total").getD 0

inductive DbRequest where
  | storeTradeBatch (batch : List (Trade × ℕ))
  | getTotalTradesCount
  | getRecentTrades (n : ℕ)
  | getTradesByRange (startIndex limit : ℕ)
  | getNextTradeCounter
  | checkIdExists (id : String)
  | storeIdWithIndex (id : String) (index : ℕ)
  deriving DecidableEq, Repr

/-- `DbRequestHandler::Response`. -/
abbrev DbRequest.Response : DbRequest → Type
  | .storeTradeBatch _ => ℕ
  | .getTotalTradesCount => ℕ
  | .getRecentTrades _ => List Trade
  | .getTradesByRange _ _ => List Trade
  | .getNextTradeCounter => ℕ
  | .checkIdExists _ => Bool
  | .storeIdWithIndex _ _ => Unit

section Handlers

variable (serde : SerdeJson) (checks : Bool)

/-- The transaction in which `main` creates the tables and the counter. -/
def createTables : Session TradeDb Unit := do
  let writeTxn ← .begin
  .op
  .op
  .op
  .op
  .op
  if (writeTxn.tradesMeta.lookup "total").isNone then do
    .op
    .commit { writeTxn with tradesMeta := writeTxn.tradesMeta.insert "total" 0 }
  else .commit writeTxn

/-- The loop over the batch, on the tables of the transaction. -/
def insertTrades : List (Trade × ℕ) → TradeDb → Session TradeDb TradeDb
  | [], writeTxn => pure writeTxn
  | (trade, index) :: batch, writeTxn => do
    .op
    let writeTxn :=
      { writeTxn with trades := writeTxn.trades.insert index (serde.tradeToVec trade) }
    .op
    let writeTxn := { writeTxn with tradeIds := writeTxn.tradeIds.insert trade.id index }
    insertTrades batch writeTxn

def handleStoreTradeBatch (batch : List (Trade × ℕ)) : Session TradeDb ℕ := do
  let writeTxn ← .begin
  .op
  .op
  let writeTxn ← insertTrades serde batch writeTxn
  let storedCount := batch.length
  .commit writeTxn
  pure storedCount

def handleGetTotalTradesCount : Session TradeDb ℕ := do
  let readTxn ← .begin
  .op
  .op
  pure readTxn.total

/-- The loop of the recent trades over `remaining` indices from `i` on. -/
def collectRecent (readTxn : TradeDb) : ℕ → ℕ → List Trade → Session TradeDb (List Trade)
  | 0, _, result => pure result
  | remaining + 1, i, result => do
    .op
    match readTxn.trades.lookup i with
    | some entryBytes =>
      match serde.tradeFromSlice entryBytes with
      | .ok trade => collectRecent readTxn remaining (i + 1) (result ++ [trade])
      | .error _ => collectRecent readTxn remaining (i + 1) result
    | none => collectRecent readTxn remaining (i + 1) result

def handleGetRecentTrades (self : ℕ) : Session TradeDb (List Trade) := do
  let readTxn ← .begin
  .op
  .op
  .op
  let total := readTxn.total
  let n := min (min self total) maxPageSize
  if n = 0 then pure []
  else collectRecent serde readTxn n (total - n + 1) []

/-- The loop of the range over `remaining` indices from `i` on; it breaks at a gap. -/
def collectRange (readTxn : TradeDb) : ℕ → ℕ → List Trade → Session TradeDb (List Trade)
  | 0, _, result => pure result
  | remaining + 1, i, result => do
    .op
    match readTxn.trades.lookup i with
    | some entryBytes =>
      match serde.tradeFromSlice entryBytes with
      | .ok trade => collectRange readTxn remaining (i + 1) (result ++ [trade])
      | .error _ => collectRange readTxn remaining (i + 1) result
    | none => pure result

def handleGetTradesByRange (startIndex limit : ℕ) : Session TradeDb (List Trade) := do
  let readTxn ← .begin
  .op
  let endIndex ← .checked (u64Add checks startIndex limit)
  collectRange serde readTxn (endIndex - startIndex) startIndex []

def handleGetNextTradeCounter : Session TradeDb ℕ := do
  let readTxn ← .begin
  .op
  .op
  let currentTotal := readTxn.total
  let newTotal ← .checked (u64Add checks currentTotal 1)
  let writeTxn ← .begin
  .op
  .op
  .commit { writeTxn with tradesMeta := writeTxn.tradesMeta.insert "total" newTotal }
  pure newTotal

def handleCheckIdExists (self : String) : Session TradeDb Bool := do
  let readTxn ← .begin
  .op
  .op
  pure (readTxn.tradeIds.lookup self).isSome

def handleStoreIdWithIndex (id : String) (index : ℕ) : Session TradeDb Unit := do
  let writeTxn ← .begin
  .op
  .op
  .commit { writeTxn with tradeIds := writeTxn.tradeIds.insert id index }

/-- `DbRequestHandler::handle`. -/
def DbRequest.handle : (q : DbRequest) → Session TradeDb q.Response
  | .storeTradeBatch batch => handleStoreTradeBatch serde batch
  | .getTotalTradesCount => handleGetTotalTradesCount
  | .getRecentTrades n => handleGetRecentTrades serde n
  | .getTradesByRange startIndex limit => handleGetTradesByRange serde checks startIndex limit
  | .getNextTradeCounter => handleGetNextTradeCounter checks
  | .checkIdExists id => handleCheckIdExists id
  | .storeIdWithIndex id index => handleStoreIdWithIndex id index

end Handlers

section Updates

/-- The committed effect of `GetNextTradeCounterRequest`. -/
def TradeDb.setTotal (db : TradeDb) (total : ℕ) : TradeDb :=
  { db with tradesMeta := db.tradesMeta.insert "total" total }

/-- The committed effect of `StoreIdWithIndexRequest`. -/
def TradeDb.storeId (db : TradeDb) (id : String) (index : ℕ) : TradeDb :=
  { db with tradeIds := db.tradeIds.insert id index }

/-- The committed effect of `StoreTradeBatchRequest`. -/
def TradeDb.storeTrades (serde : SerdeJson) (db : TradeDb) (batch : List (Trade × ℕ)) : TradeDb :=
  batch.foldl (fun db entry =>
    { db with
      trades := db.trades.insert entry.2 (serde.tradeToVec entry.1)
      tradeIds := db.tradeIds.insert entry.1.id entry.2 }) db

@[simp] theorem total_setTotal (db : TradeDb) (total : ℕ) : (db.setTotal total).total = total := by
  simp [TradeDb.total, TradeDb.setTotal]

@[simp] theorem trades_setTotal (db : TradeDb) (total : ℕ) :
    (db.setTotal total).trades = db.trades := rfl

@[simp] theorem tradeIds_setTotal (db : TradeDb) (total : ℕ) :
    (db.setTotal total).tradeIds = db.tradeIds := rfl

@[simp] theorem total_storeId (db : TradeDb) (id : String) (index : ℕ) :
    (db.storeId id index).total = db.total := rfl

@[simp] theorem trades_storeId (db : TradeDb) (id : String) (index : ℕ) :
    (db.storeId id index).trades = db.trades := rfl

@[simp] theorem tradeIds_storeId (db : TradeDb) (id : String) (index : ℕ) :
    (db.storeId id index).tradeIds = db.tradeIds.insert id index := rfl

variable (serde : SerdeJson)

@[simp] theorem storeTrades_nil (db : TradeDb) : db.storeTrades serde [] = db := rfl

theorem storeTrades_cons (db : TradeDb) (trade : Trade) (index : ℕ) (batch : List (Trade × ℕ)) :
    db.storeTrades serde ((trade, index) :: batch) =
      TradeDb.storeTrades serde
        { db with
          trades := db.trades.insert index (serde.tradeToVec trade)
          tradeIds := db.tradeIds.insert trade.id index } batch := rfl

theorem storeTrades_concat (db : TradeDb) (batch : List (Trade × ℕ)) (trade : Trade) (index : ℕ) :
    db.storeTrades serde (batch ++ [(trade, index)]) =
      { db.storeTrades serde batch with
        trades := (db.storeTrades serde batch).trades.insert index (serde.tradeToVec trade)
        tradeIds := (db.storeTrades serde batch).tradeIds.insert trade.id index } := by
  simp [TradeDb.storeTrades]

@[simp] theorem tradesMeta_storeTrades (db : TradeDb) (batch : List (Trade × ℕ)) :
    (db.storeTrades serde batch).tradesMeta = db.tradesMeta := by
  induction batch generalizing db with
  | nil => rfl
  | cons entry batch ih =>
    rw [storeTrades_cons, ih]

@[simp] theorem total_storeTrades (db : TradeDb) (batch : List (Trade × ℕ)) :
    (db.storeTrades serde batch).total = db.total := by
  simp [TradeDb.total]

end Updates

section Outcomes

open Session

variable {serde : SerdeJson} {checks : Bool} {db db' : TradeDb}

theorem getNextTradeCounter_ends {r : Except Halt ℕ}
    (h : (handleGetNextTradeCounter checks).Ends db r db') :
    Fails db r db' ∨ (r = .error .panic ∧ u64Add checks db.total 1 = none ∧ db' = db) ∨
      ∃ new, u64Add checks db.total 1 = some new ∧ r = .ok new ∧ db' = db.setTotal new := by
  rcases ends_begin_bind h with hfails | h
  · exact Or.inl hfails
  rcases ends_op_bind h with hfails | h
  · exact Or.inl hfails
  rcases ends_op_bind h with hfails | h
  · exact Or.inl hfails
  rcases ends_checked_bind h with ⟨rfl, hadd, hr⟩ | ⟨new, hadd, h⟩
  · exact Or.inr (Or.inl ⟨hr, hadd, rfl⟩)
  rcases ends_begin_bind h with hfails | h
  · exact Or.inl hfails
  rcases ends_op_bind h with hfails | h
  · exact Or.inl hfails
  rcases ends_op_bind h with hfails | h
  · exact Or.inl hfails
  rcases ends_commit_bind h with hfails | h
  · exact Or.inl hfails
  obtain ⟨rfl, rfl⟩ := ends_pure h
  exact Or.inr (Or.inr ⟨new, hadd, rfl, rfl⟩)

theorem storeIdWithIndex_ends {id : String} {index : ℕ} {r : Except Halt Unit}
    (h : (handleStoreIdWithIndex id index).Ends db r db') :
    Fails db r db' ∨ r = .ok () ∧ db' = db.storeId id index := by
  rcases ends_begin_bind h with hfails | h
  · exact Or.inl hfails
  rcases ends_op_bind h with hfails | h
  · exact Or.inl hfails
  rcases ends_op_bind h with hfails | h
  · exact Or.inl hfails
  exact ends_commit h

theorem insertTrades_ends {batch : List (Trade × ℕ)} {copy : TradeDb} {r : Except Halt TradeDb}
    (h : (insertTrades serde batch copy).Ends db r db') :
    Fails db r db' ∨ r = .ok (copy.storeTrades serde batch) ∧ db' = db := by
  induction batch generalizing copy with
  | nil =>
    obtain ⟨rfl, rfl⟩ := ends_pure h
    exact Or.inr ⟨rfl, rfl⟩
  | cons entry batch ih =>
    rcases ends_op_bind h with hfails | h
    · exact Or.inl hfails
    rcases ends_op_bind h with hfails | h
    · exact Or.inl hfails
    exact ih h

theorem storeTradeBatch_ends {batch : List (Trade × ℕ)} {r : Except Halt ℕ}
    (h : (handleStoreTradeBatch serde batch).Ends db r db') :
    Fails db r db' ∨ r = .ok batch.length ∧ db' = db.storeTrades serde batch := by
  rcases ends_begin_bind h with hfails | h
  · exact Or.inl hfails
  rcases ends_op_bind h with hfails | h
  · exact Or.inl hfails
  rcases ends_op_bind h with hfails | h
  · exact Or.inl hfails
  rcases ends_bind h with ⟨halt, rfl, hinsert⟩ | ⟨copy, mid, hinsert, h⟩
  · rcases insertTrades_ends hinsert with ⟨rfl, message, hr⟩ | ⟨hr, _⟩
    · cases hr
      exact Or.inl ⟨rfl, message, rfl⟩
    · cases hr
  · rcases insertTrades_ends hinsert with ⟨_, message, hr⟩ | ⟨hr, rfl⟩
    · cases hr
    cases hr
    rcases ends_commit_bind h with hfails | h
    · exact Or.inl hfails
    obtain ⟨rfl, rfl⟩ := ends_pure h
    exact Or.inr ⟨rfl, rfl⟩

theorem checkIdExists_ends {id : String} {r : Except Halt Bool}
    (h : (handleCheckIdExists id).Ends db r db') :
    Fails db r db' ∨ r = .ok (db.tradeIds.lookup id).isSome ∧ db' = db := by
  rcases ends_begin_bind h with hfails | h
  · exact Or.inl hfails
  rcases ends_op_bind h with hfails | h
  · exact Or.inl hfails
  rcases ends_op_bind h with hfails | h
  · exact Or.inl hfails
  exact Or.inr (ends_pure h)

theorem getTotalTradesCount_ends {r : Except Halt ℕ}
    (h : handleGetTotalTradesCount.Ends db r db') :
    Fails db r db' ∨ r = .ok db.total ∧ db' = db := by
  rcases ends_begin_bind h with hfails | h
  · exact Or.inl hfails
  rcases ends_op_bind h with hfails | h
  · exact Or.inl hfails
  rcases ends_op_bind h with hfails | h
  · exact Or.inl hfails
  exact Or.inr (ends_pure h)

/-- The trade under an index, if there is one and it can be decoded. -/
def TradeDb.trade? (serde : SerdeJson) (db : TradeDb) (i : ℕ) : Option Trade :=
  (db.trades.lookup i).bind fun bytes => (serde.tradeFromSlice bytes).toOption

theorem collectRecent_ends {copy : TradeDb} {remaining i : ℕ} {result : List Trade}
    {r : Except Halt (List Trade)}
    (h : (collectRecent serde copy remaining i result).Ends db r db') :
    Fails db r db' ∨
      r = .ok (result ++ (List.range' i remaining).filterMap (copy.trade? serde)) ∧ db' = db := by
  induction remaining generalizing i result with
  | zero => simpa using Or.inr (ends_pure h)
  | succ remaining ih =>
    rcases ends_op_bind h with hfails | h
    · exact Or.inl hfails
    rw [List.range'_succ, List.filterMap_cons]
    cases hbytes : copy.trades.lookup i with
    | none => simpa [hbytes, TradeDb.trade?] using ih (by simpa [hbytes] using h)
    | some bytes =>
      cases htrade : serde.tradeFromSlice bytes with
      | error e =>
        simpa [hbytes, htrade, TradeDb.trade?, Except.toOption] using
          ih (by simpa [hbytes, htrade] using h)
      | ok trade =>
        have hnext : (collectRecent serde copy remaining (i + 1) (result ++ [trade])).Ends db r db' := by
          simpa [hbytes, htrade] using h
        have htail := ih hnext
        rw [List.append_assoc, List.singleton_append] at htail
        simpa [hbytes, htrade, TradeDb.trade?, Except.toOption] using htail

theorem getRecentTrades_ends {n : ℕ} {r : Except Halt (List Trade)}
    (h : (handleGetRecentTrades serde n).Ends db r db') :
    Fails db r db' ∨ db' = db ∧ r = .ok ((List.range' (db.total - min (min n db.total) maxPageSize
      + 1) (min (min n db.total) maxPageSize)).filterMap (db.trade? serde)) := by
  rcases ends_begin_bind h with hfails | h
  · exact Or.inl hfails
  rcases ends_op_bind h with hfails | h
  · exact Or.inl hfails
  rcases ends_op_bind h with hfails | h
  · exact Or.inl hfails
  rcases ends_op_bind h with hfails | h
  · exact Or.inl hfails
  dsimp only at h
  split_ifs at h with hn
  · obtain ⟨rfl, rfl⟩ := ends_pure h
    exact Or.inr ⟨rfl, by simp [hn]⟩
  · rcases collectRecent_ends h with hfails | ⟨hr, hdb⟩
    · exact Or.inl hfails
    · exact Or.inr ⟨hdb, by simpa using hr⟩

theorem collectRange_ends {copy : TradeDb} {remaining i : ℕ} {result : List Trade}
    {r : Except Halt (List Trade)}
    (h : (collectRange serde copy remaining i result).Ends db r db') :
    db' = db ∧ r ≠ .error .panic := by
  induction remaining generalizing i result with
  | zero =>
    obtain ⟨rfl, rfl⟩ := ends_pure h
    exact ⟨rfl, nofun⟩
  | succ remaining ih =>
    rcases ends_op_bind h with ⟨rfl, message, rfl⟩ | h
    · exact ⟨rfl, nofun⟩
    cases hbytes : copy.trades.lookup i with
    | none =>
      obtain ⟨rfl, rfl⟩ := ends_pure (by simpa [hbytes] using h)
      exact ⟨rfl, nofun⟩
    | some bytes =>
      cases htrade : serde.tradeFromSlice bytes with
      | error e => exact ih (by simpa [hbytes, htrade] using h)
      | ok trade => exact ih (by simpa [hbytes, htrade] using h)

theorem getTradesByRange_ends {startIndex limit : ℕ} {r : Except Halt (List Trade)}
    (h : (handleGetTradesByRange serde checks startIndex limit).Ends db r db') :
    db' = db ∧ (r = .error .panic → u64Add checks startIndex limit = none) := by
  rcases ends_begin_bind h with ⟨rfl, message, rfl⟩ | h
  · exact ⟨rfl, nofun⟩
  rcases ends_op_bind h with ⟨rfl, message, rfl⟩ | h
  · exact ⟨rfl, nofun⟩
  rcases ends_checked_bind h with ⟨rfl, hadd, rfl⟩ | ⟨endIndex, _, h⟩
  · exact ⟨rfl, fun _ => hadd⟩
  · obtain ⟨rfl, hpanic⟩ := collectRange_ends h
    exact ⟨rfl, fun hr => absurd hr hpanic⟩

theorem createTables_ends {r : Except Halt Unit} (h : createTables.Ends db r db') :
    db' = db ∨ db.tradesMeta.lookup "total" = none ∧ db' = db.setTotal 0 := by
  rcases ends_begin_bind h with ⟨rfl, _⟩ | h
  · exact Or.inl rfl
  rcases ends_op_bind h with ⟨rfl, _⟩ | h
  · exact Or.inl rfl
  rcases ends_op_bind h with ⟨rfl, _⟩ | h
  · exact Or.inl rfl
  rcases ends_op_bind h with ⟨rfl, _⟩ | h
  · exact Or.inl rfl
  rcases ends_op_bind h with ⟨rfl, _⟩ | h
  · exact Or.inl rfl
  rcases ends_op_bind h with ⟨rfl, _⟩ | h
  · exact Or.inl rfl
  split_ifs at h with hnone
  · rcases ends_op_bind h with ⟨rfl, _⟩ | h
    · exact Or.inl rfl
    rcases ends_commit h with ⟨rfl, _⟩ | ⟨_, rfl⟩
    · exact Or.inl rfl
    · exact Or.inr ⟨by simpa using hnone, rfl⟩
  · rcases ends_commit h with ⟨rfl, _⟩ | ⟨_, rfl⟩
    · exact Or.inl rfl
    · exact Or.inl rfl

end Outcomes

end RustExperiments.TradeFeed
