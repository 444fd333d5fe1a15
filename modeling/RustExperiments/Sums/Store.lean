/- module: RustExperiments/Sums/Store
   digest: The tables of the HTTP server and the requests that its database worker handles. -/

import RustExperiments.Lib.Session
import RustExperiments.Lib.Table
import RustExperiments.Lib.U64

set_option autoImplicit false
set_option relaxedAutoImplicit false

namespace RustExperiments.Sums

open RustExperiments.Lib

def maxRequestSize : ℕ := 100

abbrev CounterType := Bool

def CounterType.launch : CounterType := true

def CounterType.endpoint : CounterType := false

structure SumRequest where
  id : String
  a : Int32
  b : Int32
  c : Int32
  deriving DecidableEq, Repr

structure JournalEntry where
  id : String
  a : Int32
  b : Int32
  c : Int32
  timestampUs : ℕ
  deriving DecidableEq, Repr

/-- What the server uses of `serde_json` and of `redb`: the parsing of a request body, an encoding
of journal entries that decodes to what was encoded, and tables that hold fewer entries than
there are 64-bit numbers, with the error of an insertion into a full one. -/
structure Crates where
  requestFromSlice : List UInt8 → Except String SumRequest
  entryToVec : JournalEntry → String
  entryFromSlice : String → Except String JournalEntry
  entryFromSlice_toVec : ∀ entry, entryFromSlice (entryToVec entry) = .ok entry
  capacity : ℕ
  capacity_lt : capacity < 2 ^ 64
  tableFull : String

/-- The committed tables. A table exists from the first write transaction on that opened it. -/
structure SumsDb where
  counters : Option (Table CounterType ℕ)
  strings : Option (Table ℕ String)
  processedIds : Option (Table String Bool)
  sumsJournal : Option (Table ℕ String)
  journalMeta : Option (Table String ℕ)

inductive CheckAndStoreIdResponse where
  | unique
  | duplicate
  deriving DecidableEq, Repr

inductive DbRequest where
  | incCounter (counterType : CounterType)
  | incString (idx : ℕ)
  | checkAndStoreId (id : String)
  | addToJournal (entry : JournalEntry)
  | getJournal (n : ℕ)
  deriving DecidableEq, Repr

/-- `DbRequestHandler::Response`. -/
abbrev DbRequest.Response : DbRequest → Type
  | .incCounter _ => ℕ
  | .incString _ => String
  | .checkAndStoreId _ => CheckAndStoreIdResponse
  | .addToJournal _ => Unit
  | .getJournal _ => List JournalEntry

section Handlers

variable (crates : Crates) (checks : Bool)

/-- `table.insert(key, value)?` -/
def insertInto {K V : Type} [DecidableEq K] (table : Table K V) (key : K) (value : V) :
    Session SumsDb (Table K V) := do
  .op
  if (table.insert key value).keys.card ≤ crates.capacity then pure (table.insert key value)
  else .fail crates.tableFull

def handleIncCounter (counterType : CounterType) : Session SumsDb ℕ := do
  let writeTxn ← .begin
  .op
  let table := writeTxn.counters.getD ∅
  .op
  let current := (table.lookup counterType).getD 0
  let newValue ← .checked (u64Add checks current 1)
  let table ← insertInto crates table counterType newValue
  .commit { writeTxn with counters := some table }
  pure newValue

def handleIncString (idx : ℕ) : Session SumsDb String := do
  let writeTxn ← .begin
  .op
  let table := writeTxn.strings.getD ∅
  .op
  let current := (table.lookup idx).getD ""
  let newValue := s!"{current}."
  let table ← insertInto crates table idx newValue
  .commit { writeTxn with strings := some table }
  pure newValue

/-- A duplicate returns before the commit, which aborts the transaction. -/
def handleCheckAndStoreId (self : String) : Session SumsDb CheckAndStoreIdResponse := do
  let writeTxn ← .begin
  .op
  let table := writeTxn.processedIds.getD ∅
  .op
  if (table.lookup self).isSome then pure .duplicate
  else do
    let table ← insertInto crates table self true
    .commit { writeTxn with processedIds := some table }
    pure .unique

def handleAddToJournal (self : JournalEntry) : Session SumsDb Unit := do
  let serialized := crates.entryToVec self
  let writeTxn ← .begin
  .op
  let journalMeta := writeTxn.journalMeta.getD ∅
  .op
  let journal := writeTxn.sumsJournal.getD ∅
  .op
  let idx := (journalMeta.lookup "idx").getD 0
  let journal ← insertInto crates journal idx serialized
  let next ← .checked (u64Add checks idx 1)
  let journalMeta ← insertInto crates journalMeta "idx" next
  .commit { writeTxn with sumsJournal := some journal, journalMeta := some journalMeta }

/-- A read transaction opens no table that no write transaction has created. -/
def openExisting {K V : Type} (name : String) : Option (Table K V) → Session SumsDb (Table K V)
  | some table => do
    .op
    pure table
  | none => .fail ("Table '" ++ name ++ "' does not exist")

/-- The loop over the journal; what cannot be decoded is left out. -/
def collectJournal (journal : Table ℕ String) :
    ℕ → ℕ → List JournalEntry → Session SumsDb (List JournalEntry)
  | 0, _, result => pure result
  | remaining + 1, i, result => do
    .op
    match journal.lookup i with
    | some entryBytes =>
      match crates.entryFromSlice entryBytes with
      | .ok entry => collectJournal journal remaining (i + 1) (result ++ [entry])
      | .error _ => collectJournal journal remaining (i + 1) result
    | none => collectJournal journal remaining (i + 1) result

def handleGetJournal (self : ℕ) : Session SumsDb (List JournalEntry) := do
  let readTxn ← .begin
  let journalMeta ← openExisting "journal_meta" readTxn.journalMeta
  let journal ← openExisting "sums_journal" readTxn.sumsJournal
  .op
  let idx := (journalMeta.lookup "idx").getD 0
  let n := min (min self idx) maxRequestSize
  collectJournal crates journal n (idx - n) []

/-- `DbRequestHandler::handle`. -/
def DbRequest.handle : (q : DbRequest) → Session SumsDb q.Response
  | .incCounter counterType => handleIncCounter crates checks counterType
  | .incString idx => handleIncString crates idx
  | .checkAndStoreId id => handleCheckAndStoreId crates id
  | .addToJournal entry => handleAddToJournal crates checks entry
  | .getJournal n => handleGetJournal crates n

end Handlers

namespace SumsDb

/-- Whether the identifier is in `PROCESSED_IDS`. -/
def processed (db : SumsDb) (id : String) : Bool :=
  ((db.processedIds.getD ∅).lookup id).isSome

/-- The entry of `STRINGS` under a key, the empty string where there is none. -/
def string (db : SumsDb) (idx : ℕ) : String := ((db.strings.getD ∅).lookup idx).getD ""

/-- The entry of `SUMS_JOURNAL` under a key. -/
def journal (db : SumsDb) (k : ℕ) : Option String := (db.sumsJournal.getD ∅).lookup k

/-- `journal_meta.get("idx")?.map(|v| v.value()).unwrap_or(0)` -/
def idx (db : SumsDb) : ℕ := ((db.journalMeta.getD ∅).lookup "idx").getD 0

/-- The committed effect of `IncCounterRequest`. -/
def setCounter (db : SumsDb) (counterType : CounterType) (value : ℕ) : SumsDb :=
  { db with counters := some ((db.counters.getD ∅).insert counterType value) }

/-- The committed effect of `IncStringRequest`. -/
def setString (db : SumsDb) (idx : ℕ) (value : String) : SumsDb :=
  { db with strings := some ((db.strings.getD ∅).insert idx value) }

/-- The committed effect of `CheckAndStoreIdRequest` on a new identifier. -/
def storeId (db : SumsDb) (id : String) : SumsDb :=
  { db with processedIds := some ((db.processedIds.getD ∅).insert id true) }

/-- The committed effect of `AddToJournalRequest`. -/
def append (db : SumsDb) (serialized : String) (next : ℕ) : SumsDb :=
  { db with
    sumsJournal := some ((db.sumsJournal.getD ∅).insert db.idx serialized)
    journalMeta := some ((db.journalMeta.getD ∅).insert "idx" next) }

section Updates

variable (db : SumsDb)

@[simp] theorem processed_setCounter (counterType : CounterType) (value : ℕ) :
    (db.setCounter counterType value).processed = db.processed := rfl

@[simp] theorem journal_setCounter (counterType : CounterType) (value : ℕ) :
    (db.setCounter counterType value).journal = db.journal := rfl

@[simp] theorem idx_setCounter (counterType : CounterType) (value : ℕ) :
    (db.setCounter counterType value).idx = db.idx := rfl

@[simp] theorem processed_setString (idx : ℕ) (value : String) :
    (db.setString idx value).processed = db.processed := rfl

@[simp] theorem journal_setString (idx : ℕ) (value : String) :
    (db.setString idx value).journal = db.journal := rfl

@[simp] theorem idx_setString (idx : ℕ) (value : String) :
    (db.setString idx value).idx = db.idx := rfl

@[simp] theorem processed_storeId (id other : String) :
    (db.storeId id).processed other = (decide (other = id) || db.processed other) := by
  simp only [processed, storeId, Option.getD_some, Table.lookup_insert_ite]
  split_ifs with h <;> simp [h]

@[simp] theorem journal_storeId (id : String) : (db.storeId id).journal = db.journal := rfl

@[simp] theorem idx_storeId (id : String) : (db.storeId id).idx = db.idx := rfl

@[simp] theorem processed_append (serialized : String) (next : ℕ) :
    (db.append serialized next).processed = db.processed := rfl

@[simp] theorem journal_append (serialized : String) (next k : ℕ) :
    (db.append serialized next).journal k =
      if k = db.idx then some serialized else db.journal k := by
  simp [journal, append]

@[simp] theorem idx_append (serialized : String) (next : ℕ) :
    (db.append serialized next).idx = next := by
  simp [idx, append]

end Updates

end SumsDb

section Outcomes

open Session

variable {crates : Crates} {checks : Bool} {db db' : SumsDb}

theorem insertInto_bind {K V α : Type} [DecidableEq K] {table : Table K V} {key : K} {value : V}
    {f : Table K V → Session SumsDb α} {r : Except Halt α}
    (h : (insertInto crates table key value >>= f).Ends db r db') :
    Fails db r db' ∨ (table.insert key value).keys.card ≤ crates.capacity ∧
      (f (table.insert key value)).Ends db r db' := by
  rcases ends_bind h with ⟨halt, rfl, hinsert⟩ | ⟨inserted, mid, hinsert, hrest⟩
  · rcases ends_op_bind hinsert with ⟨hdb, message, hr⟩ | hinsert
    · cases hr
      exact Or.inl ⟨hdb, message, rfl⟩
    split_ifs at hinsert
    · cases (ends_pure hinsert).1
    · obtain ⟨hdb, message, hr⟩ := ends_fail hinsert
      cases hr
      exact Or.inl ⟨hdb, message, rfl⟩
  · rcases ends_op_bind hinsert with ⟨_, message, hr⟩ | hinsert
    · cases hr
    split_ifs at hinsert with hroom
    · obtain ⟨hr, rfl⟩ := ends_pure hinsert
      cases hr
      exact Or.inr ⟨hroom, hrest⟩
    · obtain ⟨_, message, hr⟩ := ends_fail hinsert
      cases hr

theorem incCounter_ends {counterType : CounterType} {r : Except Halt ℕ}
    (h : (handleIncCounter crates checks counterType).Ends db r db') :
    (db' = db ∧ ∃ halt, r = .error halt) ∨
      ∃ value, u64Add checks (((db.counters.getD ∅).lookup counterType).getD 0) 1 = some value ∧
        r = .ok value ∧ db' = db.setCounter counterType value := by
  rcases ends_begin_bind h with ⟨hdb, message, hr⟩ | h
  · exact Or.inl ⟨hdb, _, hr⟩
  rcases ends_op_bind h with ⟨hdb, message, hr⟩ | h
  · exact Or.inl ⟨hdb, _, hr⟩
  rcases ends_op_bind h with ⟨hdb, message, hr⟩ | h
  · exact Or.inl ⟨hdb, _, hr⟩
  rcases ends_checked_bind h with ⟨hdb, _, hr⟩ | ⟨value, hadd, h⟩
  · exact Or.inl ⟨hdb, _, hr⟩
  rcases insertInto_bind h with ⟨hdb, message, hr⟩ | ⟨_, h⟩
  · exact Or.inl ⟨hdb, _, hr⟩
  rcases ends_commit_bind h with ⟨hdb, message, hr⟩ | h
  · exact Or.inl ⟨hdb, _, hr⟩
  obtain ⟨rfl, rfl⟩ := ends_pure h
  exact Or.inr ⟨value, hadd, rfl, rfl⟩

theorem incString_ends {idx : ℕ} {r : Except Halt String}
    (h : (handleIncString crates idx).Ends db r db') :
    Fails db r db' ∨ ∃ value, value = s!"{db.string idx}." ∧
      r = .ok value ∧ db' = db.setString idx value := by
  rcases ends_begin_bind h with hfails | h
  · exact Or.inl hfails
  rcases ends_op_bind h with hfails | h
  · exact Or.inl hfails
  rcases ends_op_bind h with hfails | h
  · exact Or.inl hfails
  rcases insertInto_bind h with hfails | ⟨_, h⟩
  · exact Or.inl hfails
  rcases ends_commit_bind h with hfails | h
  · exact Or.inl hfails
  obtain ⟨rfl, rfl⟩ := ends_pure h
  exact Or.inr ⟨_, rfl, rfl, rfl⟩

theorem checkAndStoreId_ends {id : String} {r : Except Halt CheckAndStoreIdResponse}
    (h : (handleCheckAndStoreId crates id).Ends db r db') :
    Fails db r db' ∨ (db.processed id = true ∧ r = .ok .duplicate ∧ db' = db) ∨
      db.processed id = false ∧ r = .ok .unique ∧ db' = db.storeId id := by
  rcases ends_begin_bind h with hfails | h
  · exact Or.inl hfails
  rcases ends_op_bind h with hfails | h
  · exact Or.inl hfails
  rcases ends_op_bind h with hfails | h
  · exact Or.inl hfails
  split_ifs at h with hknown
  · obtain ⟨rfl, rfl⟩ := ends_pure h
    exact Or.inr (Or.inl ⟨hknown, rfl, rfl⟩)
  · rcases insertInto_bind h with hfails | ⟨_, h⟩
    · exact Or.inl hfails
    rcases ends_commit_bind h with hfails | h
    · exact Or.inl hfails
    obtain ⟨rfl, rfl⟩ := ends_pure h
    exact Or.inr (Or.inr ⟨by simpa [SumsDb.processed] using hknown, rfl, rfl⟩)

theorem addToJournal_ends {entry : JournalEntry} {r : Except Halt Unit}
    (h : (handleAddToJournal crates checks entry).Ends db r db') :
    (db' = db ∧ ∃ halt, r = .error halt) ∨
      ∃ next, ((db.sumsJournal.getD ∅).insert db.idx (crates.entryToVec entry)).keys.card ≤
        crates.capacity ∧ u64Add checks db.idx 1 = some next ∧ r = .ok () ∧
        db' = db.append (crates.entryToVec entry) next := by
  rcases ends_begin_bind h with ⟨hdb, message, hr⟩ | h
  · exact Or.inl ⟨hdb, _, hr⟩
  rcases ends_op_bind h with ⟨hdb, message, hr⟩ | h
  · exact Or.inl ⟨hdb, _, hr⟩
  rcases ends_op_bind h with ⟨hdb, message, hr⟩ | h
  · exact Or.inl ⟨hdb, _, hr⟩
  rcases ends_op_bind h with ⟨hdb, message, hr⟩ | h
  · exact Or.inl ⟨hdb, _, hr⟩
  rcases insertInto_bind h with ⟨hdb, message, hr⟩ | ⟨hroom, h⟩
  · exact Or.inl ⟨hdb, _, hr⟩
  rcases ends_checked_bind h with ⟨hdb, _, hr⟩ | ⟨next, hadd, h⟩
  · exact Or.inl ⟨hdb, _, hr⟩
  rcases insertInto_bind h with ⟨hdb, message, hr⟩ | ⟨_, h⟩
  · exact Or.inl ⟨hdb, _, hr⟩
  rcases ends_commit h with ⟨hdb, message, hr⟩ | ⟨rfl, rfl⟩
  · exact Or.inl ⟨hdb, _, hr⟩
  · exact Or.inr ⟨next, hroom, hadd, rfl, rfl⟩

theorem collectJournal_ends {journal : Table ℕ String} {remaining i : ℕ}
    {result : List JournalEntry} {r : Except Halt (List JournalEntry)}
    (h : (collectJournal crates journal remaining i result).Ends db r db') : db' = db := by
  induction remaining generalizing i result with
  | zero => exact (ends_pure h).2
  | succ remaining ih =>
    rcases ends_op_bind h with ⟨hdb, _⟩ | h
    · exact hdb
    cases hbytes : journal.lookup i with
    | none => exact ih (by simpa [hbytes] using h)
    | some bytes =>
      cases hentry : crates.entryFromSlice bytes with
      | error e => exact ih (by simpa [hbytes, hentry] using h)
      | ok entry => exact ih (by simpa [hbytes, hentry] using h)

theorem openExisting_bind {K V α : Type} {name : String} {table : Option (Table K V)}
    {f : Table K V → Session SumsDb α} {r : Except Halt α}
    (h : (openExisting name table >>= f).Ends db r db') :
    Fails db r db' ∨ ∃ opened, table = some opened ∧ (f opened).Ends db r db' := by
  have hopen : ∀ {r db'}, (openExisting name table).Ends db r db' → Fails db r db' ∨
      ∃ opened, table = some opened ∧ r = .ok opened ∧ db' = db := by
    intro r db' hends
    cases table with
    | none => exact Or.inl (ends_fail hends)
    | some opened => exact (ends_op_bind hends).imp_right fun hpure => ⟨opened, rfl, ends_pure hpure⟩
  rcases ends_bind h with ⟨halt, rfl, hends⟩ | ⟨opened, mid, hends, hrest⟩
  · rcases hopen hends with ⟨hdb, message, hr⟩ | ⟨_, _, hr, _⟩
    · cases hr
      exact Or.inl ⟨hdb, message, rfl⟩
    · cases hr
  · rcases hopen hends with ⟨_, _, hr⟩ | ⟨_, htable, hr, rfl⟩
    · cases hr
    · cases hr
      exact Or.inr ⟨opened, htable, hrest⟩

theorem getJournal_ends {n : ℕ} {r : Except Halt (List JournalEntry)}
    (h : (handleGetJournal crates n).Ends db r db') : db' = db := by
  rcases ends_begin_bind h with ⟨hdb, _⟩ | h
  · exact hdb
  rcases openExisting_bind h with ⟨hdb, _⟩ | ⟨journalMeta, _, h⟩
  · exact hdb
  rcases openExisting_bind h with ⟨hdb, _⟩ | ⟨journal, _, h⟩
  · exact hdb
  rcases ends_op_bind h with ⟨hdb, _⟩ | h
  · exact hdb
  · exact collectJournal_ends h

end Outcomes

end RustExperiments.Sums
