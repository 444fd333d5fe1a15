/- module: RustExperiments/TradeFeed/Log
   digest: Messages handled one after the other store exactly the log of their rows. -/

import RustExperiments.TradeFeed.AppendOnly

set_option autoImplicit false
set_option relaxedAutoImplicit false

namespace RustExperiments.TradeFeed

open RustExperiments.Lib

section Numbered

/-- The row with this index; the indices of a log begin at one. -/
def logRow (log : List Row) : ℕ → Option Row
  | 0 => none
  | k + 1 => log[k]?

/-- Rows as a batch, with their indices from `i` on. -/
def numbered : ℕ → List Row → List (Trade × ℕ)
  | _, [] => []
  | i, row :: rows => (row.trade i, i) :: numbered (i + 1) rows

theorem logRow_concat (log : List Row) (row : Row) (i : ℕ) :
    logRow (log ++ [row]) i = if i = log.length + 1 then some row else logRow log i := by
  cases i with
  | zero => rfl
  | succ k =>
    simp only [logRow, Nat.add_right_cancel_iff]
    split_ifs with h
    · simp [h]
    · rcases Nat.lt_or_gt_of_ne h with hlt | hgt
      · exact List.getElem?_append_left hlt
      · rw [List.getElem?_eq_none (by simp; omega), List.getElem?_eq_none (by omega)]

theorem logRow_le {log : List Row} {i : ℕ} {row : Row} (h : logRow log i = some row) :
    1 ≤ i ∧ i ≤ log.length := by
  cases i with
  | zero => cases h
  | succ k =>
    have hlt : k < log.length := (List.getElem?_eq_some_iff.mp h).1
    omega

theorem numbered_concat (i : ℕ) (rows : List Row) (row : Row) :
    numbered i (rows ++ [row]) = numbered i rows ++ [(row.trade (i + rows.length), i + rows.length)] := by
  induction rows generalizing i with
  | nil => rfl
  | cons r rows ih =>
    have hlength : i + 1 + rows.length = i + (r :: rows).length := by
      rw [List.length_cons]
      omega
    rw [List.cons_append, numbered, ih, numbered, List.cons_append, hlength]

theorem mem_numbered {stored done : List Row} {entry : Trade × ℕ}
    (h : entry ∈ numbered (stored.length + 1) done) :
    ∃ row, logRow (stored ++ done) entry.2 = some row ∧ entry.1 = row.trade entry.2 := by
  induction done using List.reverseRecOn with
  | nil => cases h
  | append_singleton done row ih =>
    have hindex : stored.length + 1 + done.length = (stored ++ done).length + 1 := by
      rw [List.length_append]
      omega
    rw [numbered_concat, hindex, List.mem_append, List.mem_singleton] at h
    rw [← List.append_assoc]
    rcases h with hold | rfl
    · obtain ⟨r, hr, htrade⟩ := ih hold
      have hle := (logRow_le hr).2
      exact ⟨r, by rw [logRow_concat, if_neg (by omega), hr], htrade⟩
    · exact ⟨row, by rw [logRow_concat, if_pos rfl], rfl⟩

theorem numbered_eq_nil {i : ℕ} {rows : List Row} : numbered i rows = [] ↔ rows = [] := by
  cases rows <;> simp [numbered]

end Numbered

/-- The counter stands at `n`, the trades are those of the log `stored`, and the identifiers
those of the log `reserved`. -/
structure Holds (serde : SerdeJson) (n : ℕ) (stored reserved : List Row) (db : TradeDb) : Prop where
  total : db.tradesMeta.lookup "total" = some n
  trades : ∀ i, db.trades.lookup i =
    (logRow stored i).map fun row => serde.tradeToVec (row.trade i)
  tradeIds : ∀ id i, db.tradeIds.lookup id = some i ↔
    ∃ row, logRow reserved i = some row ∧ id = tradeIdOf i row.price

namespace Holds

variable {serde : SerdeJson} {n : ℕ} {stored reserved done : List Row} {db : TradeDb}

theorem total_eq (h : Holds serde n stored reserved db) : db.total = n := by
  rw [TradeDb.total, h.total]
  rfl

theorem setTotal (h : Holds serde n stored reserved db) (m : ℕ) :
    Holds serde m stored reserved (db.setTotal m) :=
  ⟨by simp [TradeDb.setTotal], h.trades, h.tradeIds⟩

theorem fresh (h : Holds serde n stored reserved db) (price : String) :
    db.tradeIds.lookup (tradeIdOf (reserved.length + 1) price) = none := by
  cases hlookup : db.tradeIds.lookup (tradeIdOf (reserved.length + 1) price) with
  | none => rfl
  | some i =>
    obtain ⟨row, hrow, hid⟩ := (h.tradeIds _ i).mp hlookup
    have hle := (logRow_le hrow).2
    rw [← tradeIdOf_injective hid] at hle
    exact absurd hle (Nat.not_succ_le_self _)

theorem storeId (h : Holds serde n stored reserved db) (row : Row) :
    Holds serde n stored (reserved ++ [row])
      (db.storeId (tradeIdOf (reserved.length + 1) row.price) (reserved.length + 1)) := by
  refine ⟨h.total, h.trades, fun id i => ?_⟩
  rw [tradeIds_storeId, Table.lookup_insert_ite, logRow_concat]
  by_cases hid : id = tradeIdOf (reserved.length + 1) row.price
  · rw [if_pos hid, hid]
    constructor
    · intro hi
      cases hi
      exact ⟨row, if_pos rfl, rfl⟩
    · rintro ⟨r, _, hsame⟩
      rw [tradeIdOf_injective hsame]
  · rw [if_neg hid, h.tradeIds]
    by_cases hi : i = reserved.length + 1
    · subst hi
      rw [if_pos rfl]
      constructor
      · rintro ⟨r, hr, _⟩
        exact absurd (logRow_le hr).2 (Nat.not_succ_le_self _)
      · rintro ⟨r, hr, hid'⟩
        cases hr
        exact absurd hid' hid
    · rw [if_neg hi]

theorem trades_storeTrades (db : TradeDb)
    (h : ∀ i, db.trades.lookup i =
      (logRow stored i).map fun row => serde.tradeToVec (row.trade i)) (i : ℕ) :
    (db.storeTrades serde (numbered (stored.length + 1) done)).trades.lookup i =
      (logRow (stored ++ done) i).map fun row => serde.tradeToVec (row.trade i) := by
  induction done using List.reverseRecOn with
  | nil => simpa [numbered] using h i
  | append_singleton done row ih =>
    have hindex : stored.length + 1 + done.length = (stored ++ done).length + 1 := by
      rw [List.length_append]
      omega
    rw [numbered_concat, storeTrades_concat, ← List.append_assoc, logRow_concat, hindex]
    simp only [Table.lookup_insert_ite]
    split_ifs with hi
    · rw [hi, Option.map_some]
    · exact ih

theorem storeTrades (h : Holds serde n stored (stored ++ done) db) :
    Holds serde n (stored ++ done) (stored ++ done)
      (db.storeTrades serde (numbered (stored.length + 1) done)) := by
  have hreserved : ∀ entry ∈ numbered (stored.length + 1) done,
      db.tradeIds.lookup entry.1.id = some entry.2 := by
    intro entry hentry
    obtain ⟨row, hrow, htrade⟩ := mem_numbered hentry
    exact (h.tradeIds _ _).mpr ⟨row, hrow, by rw [htrade]; rfl⟩
  refine ⟨by rw [tradesMeta_storeTrades]; exact h.total, trades_storeTrades db h.trades, ?_⟩
  rw [tradeIds_storeTrades_of_reserved serde db _ hreserved]
  exact h.tradeIds

end Holds

abbrev Logged (serde : SerdeJson) (log : List Row) (db : TradeDb) : Prop :=
  Holds serde log.length log log db

section Serial

variable (serde : SerdeJson)

/-- The rows of the messages that are finished, and the message that is being handled. -/
structure SerialLog where
  rows : List Row
  current : Option (ℕ × List Row)
  deriving DecidableEq

def SerialLog.step (log : SerialLog) : FeedEvent → Option SerialLog
  | .spawned c (.message text _) =>
    if log.current = none then some ⟨log.rows, some (c, messageRows serde text)⟩ else none
  | .returned c _ =>
    match log.current with
    | some (d, rows) => if c = d then some ⟨log.rows ++ rows, none⟩ else some log
    | none => some log
  | _ => some log

/-- The log of a history in which one message is handled after the other, if it is one. -/
def serialLog (es : List FeedEvent) : Option SerialLog :=
  es.foldlM (SerialLog.step serde) ⟨[], none⟩

theorem serialLog_concat_iff {es : List FeedEvent} {e : FeedEvent} {log : SerialLog} :
    serialLog serde (es ++ [e]) = some log ↔
      ∃ before, serialLog serde es = some before ∧ before.step serde e = some log := by
  simp [serialLog, List.foldlM_append, Option.bind_eq_some_iff]

def InFlight (log rows : List Row) (db : TradeDb) : Writer → Prop
  | .loop todo batch => ∃ done, rows = done ++ todo ∧ batch = numbered (log.length + 1) done ∧
    Holds serde (log.length + done.length) log (log ++ done) db
  | .counted row index todo batch => ∃ done, rows = done ++ row :: todo ∧
    batch = numbered (log.length + 1) done ∧ index = (log ++ done).length + 1 ∧
    Holds serde index log (log ++ done) db
  | .checked row index todo batch => ∃ done, rows = done ++ row :: todo ∧
    batch = numbered (log.length + 1) done ∧ index = (log ++ done).length + 1 ∧
    Holds serde index log (log ++ done) db
  | .publishing _ => Logged serde (log ++ rows) db
  -- Without a failure of the database only a publication can go wrong.
  | .halted w => ∃ trades, w = .publishing trades ∧ Logged serde (log ++ rows) db
  | .reader => False

end Serial

section Step

variable {serde : SerdeJson} {checks : Bool} {log rows : List Row} {db db' : TradeDb} {w : Writer}

theorem InFlight.begin (h : Logged serde log db) : InFlight serde log rows db (.loop rows []) :=
  ⟨[], rfl, rfl, by simpa using h⟩

theorem InFlight.end (h : InFlight serde log rows db w) (ended : w.Ended) :
    Logged serde (log ++ rows) db := by
  rcases w with ⟨_ | ⟨row, todo⟩, _ | ⟨entry, batch⟩⟩ | _ | _ | _ | w | _
  · obtain ⟨done, rfl, hbatch, hholds⟩ := h
    obtain rfl := numbered_eq_nil.mp hbatch.symm
    simpa using hholds
  · exact ended.elim
  · exact ended.elim
  · exact ended.elim
  · exact ended.elim
  · exact ended.elim
  · exact h
  · obtain ⟨_, _, hlogged⟩ := h
    exact hlogged
  · exact h.elim

theorem InFlight.perform (h : InFlight serde log rows db w) {q : Await} {a : Answer q}
    (allowed : w.allows serde q) (effect : Effect serde checks db q a db')
    (succeeds : ∀ r e, (⟨q, a⟩ : Σ q, Answer q) ≠ ⟨.run r, .error e⟩)
    (few : checks = false → log.length + rows.length < 2 ^ 64) :
    InFlight serde log rows db' (w.next q a) := by
  have hwrites : w ≠ .reader := fun hw => by
    rw [hw] at h
    exact h.elim
  have hmoves := Writer.moves hwrites allowed effect
  generalize w.next q a = w' at hmoves ⊢
  cases hmoves with
  | failed _ q e => exact absurd rfl (succeeds q e)
  | counted row todo batch new advanced =>
    obtain ⟨done, hrows, hbatch, hholds⟩ := h
    rw [hholds.total_eq] at advanced
    have hnew : new = log.length + done.length + 1 := by
      refine u64Add_exact advanced fun hchecks => ?_
      have hfew := few hchecks
      rw [hrows, List.length_append, List.length_cons] at hfew
      have hlt : log.length + done.length + 1 < 2 ^ 64 := by omega
      exact hlt
    exact ⟨done, hrows, hbatch, by rw [hnew, List.length_append], hholds.setTotal new⟩
  | known row index todo batch found =>
    obtain ⟨done, _, _, hindex, hholds⟩ := h
    rw [hindex, hholds.fresh] at found
    cases found
  | fresh => exact h
  | reserved row index todo batch =>
    obtain ⟨done, hrows, hbatch, hindex, hholds⟩ := h
    refine ⟨done ++ [row], by simp [hrows], ?_, ?_⟩
    · have hnumber : log.length + 1 + done.length = (log ++ done).length + 1 := by
        rw [List.length_append]
        omega
      rw [numbered_concat, hbatch, hindex, hnumber]
    · have hstored := hholds.storeId row
      rw [← hindex, List.append_assoc] at hstored
      rw [List.length_append, List.length_singleton, ← Nat.add_assoc, ← List.length_append,
        ← hindex]
      exact hstored
  | stored batch _ =>
    obtain ⟨done, hrows, rfl, hholds⟩ := h
    rw [List.append_nil] at hrows
    subst hrows
    rw [← List.length_append] at hholds
    exact hholds.storeTrades
  | published => exact h
  | unpublished => exact ⟨_, rfl, h⟩

theorem Holds.reboot {n : ℕ} {stored reserved : List Row} {s : FeedStore}
    (h : Holds serde n stored reserved s.db) (env : Env) :
    Holds serde n stored reserved (TradeFeed.reboot env s).db := by
  rcases reboot_cases env s with hsame | ⟨hnone, _⟩
  · rw [hsame]
    exact h
  · rw [h.total] at hnone
    cases hnone

end Step

section Runs

variable (serde : SerdeJson) (checks : Bool)

def SerialLog.size (log : SerialLog) : ℕ :=
  log.rows.length + (log.current.map fun c => c.2.length).getD 0

def databaseError : FeedEvent → Bool
  | .performed _ (.run _) (.error _) => true
  | _ => false

def NoFailure (es : List FeedEvent) : Prop := ∀ e ∈ es, databaseError e = false

/-- Outside a message the tables are those of the log; a message being handled adds its rows,
unless its handler is gone. All other clients only read. -/
structure Serially (es : List FeedEvent) (log : SerialLog) (db : TradeDb) (Γ : ℕ → Option Writer) :
    Prop where
  quiet : log.current = none → Logged serde log.rows db
  busy : ∀ c rows w, log.current = some (c, rows) → Γ c = some w →
    InFlight serde log.rows rows db w
  spawned : ∀ c rows, log.current = some (c, rows) → ∃ task, .spawned c task ∈ es
  readers : ∀ d w, Γ d = some w → (∀ rows, log.current ≠ some (d, rows)) → w = .reader

structure Followed (es : List FeedEvent) (log : SerialLog) : Prop where
  serial : serialLog serde es = some log
  noFailure : NoFailure es
  few : checks = false → log.size < 2 ^ 64

theorem SerialLog.step_cases {log log' : SerialLog} {e : FeedEvent}
    (h : log.step serde e = some log') :
    (∃ c text redisConnection, e = .spawned c (.message text redisConnection) ∧
      log.current = none ∧ log' = ⟨log.rows, some (c, messageRows serde text)⟩) ∨
    (∃ c r rows, e = .returned c r ∧ log.current = some (c, rows) ∧
      log' = ⟨log.rows ++ rows, none⟩) ∨
    (log' = log ∧ (∀ c text redisConnection, e ≠ .spawned c (.message text redisConnection)) ∧
      ∀ c r, e = .returned c r → ∀ rows, log.current ≠ some (c, rows)) := by
  cases e with
  | spawned c task =>
    cases task with
    | message text redisConnection =>
      simp only [SerialLog.step] at h
      split_ifs at h with hnone
      exact Or.inl ⟨c, text, redisConnection, rfl, hnone, (Option.some.inj h).symm⟩
    | tradesCount => exact Or.inr (Or.inr ⟨(Option.some.inj h).symm, nofun, nofun⟩)
    | trades startIndex limit => exact Or.inr (Or.inr ⟨(Option.some.inj h).symm, nofun, nofun⟩)
  | performed c q a => exact Or.inr (Or.inr ⟨(Option.some.inj h).symm, nofun, nofun⟩)
  | returned c r =>
    cases hcurrent : log.current with
    | none =>
      simp only [SerialLog.step, hcurrent, Option.some.injEq] at h
      exact Or.inr (Or.inr ⟨h.symm, nofun, fun _ _ _ _ => nofun⟩)
    | some current =>
      obtain ⟨d, rows⟩ := current
      simp only [SerialLog.step, hcurrent] at h
      split_ifs at h with hcd
      · subst hcd
        exact Or.inr (Or.inl ⟨c, r, rows, rfl, rfl, (Option.some.inj h).symm⟩)
      · refine Or.inr (Or.inr ⟨(Option.some.inj h).symm, nofun, ?_⟩)
        rintro c' r' he rows' heq
        cases he
        cases heq
        exact hcd rfl

theorem size_step {log log' : SerialLog} {e : FeedEvent} (h : log.step serde e = some log') :
    log.size ≤ log'.size := by
  rcases log.step_cases serde h with ⟨c, text, _, _, hnone, rfl⟩ | ⟨c, r, rows, _, hsome, rfl⟩ |
    ⟨rfl, _⟩
  · simp [SerialLog.size, hnone]
  · simp [SerialLog.size, hsome]
  · exact Nat.le_refl _

theorem Followed.of_concat {es : List FeedEvent} {e : FeedEvent} {log : SerialLog}
    (h : Followed serde checks (es ++ [e]) log) :
    ∃ before, Followed serde checks es before ∧ before.step serde e = some log := by
  obtain ⟨before, hbefore, hstep⟩ := (serialLog_concat_iff serde).mp h.serial
  refine ⟨before, ⟨hbefore, fun e he => h.noFailure e (List.mem_append_left _ he),
    fun hchecks => (size_step serde hstep).trans_lt (h.few hchecks)⟩, hstep⟩

variable {serde checks} {es : List FeedEvent} {log log' : SerialLog} {db : TradeDb}
  {Γ : ℕ → Option Writer} {c : ℕ} {w : Writer}

namespace Serially

theorem initial : Serially serde [] ⟨[], none⟩ FeedStore.first.db fun _ => none where
  quiet _ := by
    rw [first_db]
    exact ⟨by simp [TradeDb.setTotal], fun i => by cases i <;> simp [logRow],
      fun id i => by cases i <;> simp [logRow]⟩
  busy := nofun
  spawned := nofun
  readers := nofun

theorem spawn (h : Serially serde es log db Γ) (task : Task) (dead : Γ c = none)
    (unspawned : ∀ task', .spawned c task' ∉ es) (step : log.step serde (.spawned c task) = some log') :
    Serially serde (es ++ [.spawned c task]) log' db
      (Function.update Γ c (some (.start serde task))) := by
  rcases log.step_cases serde step with ⟨d, text, redisConnection, he, hnone, rfl⟩ |
    ⟨d, r, rows, he, _⟩ | ⟨rfl, hmessage, _⟩
  · cases he
    refine ⟨nofun, ?_, ?_, ?_⟩
    · intro d rows w hcurrent hd
      cases hcurrent
      rw [Function.update_self] at hd
      cases hd
      exact InFlight.begin (h.quiet hnone)
    · intro d rows hcurrent
      cases hcurrent
      exact ⟨.message text redisConnection, by simp⟩
    · intro d w hd hcurrent
      have hdc : d ≠ c := by
        rintro rfl
        exact hcurrent _ rfl
      rw [Function.update_of_ne hdc] at hd
      exact h.readers d w hd (by simp [hnone])
  · cases he
  · refine ⟨h.quiet, ?_, ?_, ?_⟩
    · intro d rows w hcurrent hd
      have hdc : d ≠ c := by
        rintro rfl
        obtain ⟨task', htask⟩ := h.spawned _ rows hcurrent
        exact unspawned task' htask
      rw [Function.update_of_ne hdc] at hd
      exact h.busy d rows w hcurrent hd
    · intro d rows hcurrent
      obtain ⟨task', htask⟩ := h.spawned d rows hcurrent
      exact ⟨task', List.mem_append_left _ htask⟩
    · intro d w hd hcurrent
      rcases Clients.update_cases hd with ⟨rfl, hw⟩ | ⟨_, hold⟩
      · cases hw
        cases task with
        | message text redisConnection => exact absurd rfl (hmessage _ text redisConnection)
        | tradesCount => rfl
        | trades startIndex limit => rfl
      · exact h.readers d w hold hcurrent

theorem perform (h : Serially serde es log db Γ) (ghost : Γ c = some w) {q : Await} {a : Answer q}
    {db' : TradeDb} (allowed : w.allows serde q) (effect : Effect serde checks db q a db')
    (followed : Followed serde checks (es ++ [.performed c q a]) log) :
    Serially serde (es ++ [.performed c q a]) log db' (Function.update Γ c (some (w.next q a))) := by
  have hspawned : ∀ d rows, log.current = some (d, rows) →
      ∃ task, .spawned d task ∈ es ++ [.performed c q a] := by
    intro d rows hcurrent
    obtain ⟨task, htask⟩ := h.spawned d rows hcurrent
    exact ⟨task, List.mem_append_left _ htask⟩
  by_cases hcurrent : ∃ rows, log.current = some (c, rows)
  · obtain ⟨rows, hcurrent⟩ := hcurrent
    refine ⟨fun hnone => absurd (hcurrent.symm.trans hnone) nofun, ?_, hspawned, ?_⟩
    · intro d rows' w' hcurrent' hd
      rw [hcurrent] at hcurrent'
      cases hcurrent'
      rw [Function.update_self] at hd
      cases hd
      refine (h.busy c rows w hcurrent ghost).perform allowed effect ?_ fun hchecks => ?_
      · rintro r e heq
        cases heq
        exact absurd (followed.noFailure (.performed c (.run r) (.error e)) (by simp)) nofun
      · have hsize := followed.few hchecks
        rwa [SerialLog.size, hcurrent] at hsize
    · intro d w' hd hother
      have hdc : d ≠ c := by
        rintro rfl
        exact hother rows hcurrent
      rw [Function.update_of_ne hdc] at hd
      exact h.readers d w' hd hother
  · -- A client that is not the current one only reads.
    have hreader := h.readers c w ghost fun rows heq => hcurrent ⟨rows, heq⟩
    subst hreader
    have hdb : db' = db := by
      cases effect <;> first | rfl | exact allowed.elim
    subst hdb
    have hnext : Writer.next .reader q a = .reader := rfl
    rw [hnext, ← ghost, Function.update_eq_self]
    exact ⟨h.quiet, h.busy, hspawned, h.readers⟩

theorem returned (h : Serially serde es log db Γ) (ghost : Γ c = some w) (ended : w.Ended)
    {r : Outcome} (step : log.step serde (.returned c r) = some log') :
    Serially serde (es ++ [.returned c r]) log' db (Function.update Γ c none) := by
  rcases log.step_cases serde step with ⟨d, text, redisConnection, he, _⟩ |
    ⟨d, r', rows, he, hcurrent, rfl⟩ | ⟨rfl, _, hother⟩
  · cases he
  · cases he
    refine ⟨fun _ => (h.busy c rows w hcurrent ghost).end ended, nofun, nofun, ?_⟩
    intro d w' hd _
    have hdc : d ≠ c := by
      rintro rfl
      rw [Function.update_self] at hd
      cases hd
    rw [Function.update_of_ne hdc] at hd
    refine h.readers d w' hd fun rows' heq => hdc ?_
    rw [hcurrent] at heq
    cases heq
    rfl
  · refine ⟨h.quiet, ?_, ?_, ?_⟩
    · exact fun d rows w' hcurrent hd => h.busy d rows w' hcurrent (Clients.update_none_cases hd)
    · intro d rows hcurrent
      obtain ⟨task, htask⟩ := h.spawned d rows hcurrent
      exact ⟨task, List.mem_append_left _ htask⟩
    · exact fun d w' hd => h.readers d w' (Clients.update_none_cases hd)

theorem drop (h : Serially serde es log db Γ) :
    Serially serde es log db (Function.update Γ c none) :=
  ⟨h.quiet, fun d rows w hcurrent hd => h.busy d rows w hcurrent (Clients.update_none_cases hd), h.spawned,
    fun d w hd => h.readers d w (Clients.update_none_cases hd)⟩

theorem restart {s : FeedStore} (h : Serially serde es log s.db Γ) (env : Env) :
    Serially serde es log (reboot env s).db fun _ => none :=
  ⟨fun hnone => (h.quiet hnone).reboot env, nofun, h.spawned, nofun⟩

end Serially

variable (serde checks)

theorem serially_preserved :
    (feed serde checks).Preserved (writerProtocol serde) (fun w _ => w.Ended) (Writer.start serde)
      fun es s Γ => ∀ log, Followed serde checks es log → Serially serde es log s.db Γ where
  obeys := task_obeys serde
  spawn i task inv dead unspawned log followed := by
    obtain ⟨before, hbefore, hstep⟩ := followed.of_concat
    exact (inv before hbefore).spawn task dead unspawned hstep
  perform i w q env inv ghost allowed log followed := by
    obtain ⟨before, hbefore, hstep⟩ := followed.of_concat
    obtain rfl : before = log := Option.some.inj hstep
    exact (inv before hbefore).perform ghost allowed (perform_effect serde checks q env _) followed
  returned i w r inv ghost ended log followed := by
    obtain ⟨before, hbefore, hstep⟩ := followed.of_concat
    exact (inv before hbefore).returned ghost ended hstep
  drop i inv log followed := (inv log followed).drop
  restart env inv log followed := (inv log followed).restart env

end Runs

section Reads

variable {serde : SerdeJson} {log : List Row} {db : TradeDb}

def logTrades (log : List Row) : List Trade := (numbered 1 log).map Prod.fst

theorem numbered_append (i : ℕ) (xs ys : List Row) :
    numbered i (xs ++ ys) = numbered i xs ++ numbered (i + xs.length) ys := by
  induction xs generalizing i with
  | nil => rfl
  | cons row xs ih =>
    have hlength : i + 1 + xs.length = i + (row :: xs).length := by
      rw [List.length_cons]
      omega
    rw [List.cons_append, numbered, ih, numbered, List.cons_append, hlength]

@[simp] theorem length_numbered (i : ℕ) (rows : List Row) :
    (numbered i rows).length = rows.length := by
  induction rows generalizing i with
  | nil => rfl
  | cons row rows ih => simp [numbered, ih]

theorem Holds.trade?_eq {n : ℕ} {stored reserved : List Row} (h : Holds serde n stored reserved db)
    (i : ℕ) : db.trade? serde i = (logRow stored i).map fun row => row.trade i := by
  rw [TradeDb.trade?, h.trades i]
  cases logRow stored i with
  | none => rfl
  | some row => simp [serde.tradeFromSlice_toVec, Except.toOption]

theorem filterMap_logRow (older newer : List Row) :
    (List.range' (older.length + 1) newer.length).filterMap
      (fun i => (logRow (older ++ newer) i).map fun row => row.trade i) =
      (numbered (older.length + 1) newer).map Prod.fst := by
  induction newer generalizing older with
  | nil => rfl
  | cons row newer ih =>
    have hrow : logRow (older ++ row :: newer) (older.length + 1) = some row := by
      simp [logRow]
    have hrest := ih (older ++ [row])
    rw [List.append_assoc, List.singleton_append, List.length_append, List.length_singleton]
      at hrest
    rw [List.length_cons, List.range'_succ, List.filterMap_cons_some (by rw [hrow, Option.map_some]),
      hrest, numbered, List.map_cons]

theorem drop_logTrades (older newer : List Row) :
    (logTrades (older ++ newer)).drop older.length =
      (numbered (older.length + 1) newer).map Prod.fst := by
  rw [logTrades, numbered_append, List.map_append, List.drop_left' (by simp), Nat.add_comm]

theorem collectRecent_fine (copy s : TradeDb) (remaining i : ℕ) (result : List Trade) :
    collectRecent serde copy remaining i result s [] =
      (.ok (result ++ (List.range' i remaining).filterMap (copy.trade? serde)), s, []) := by
  induction remaining generalizing i result with
  | zero => simp [collectRecent, pure]
  | succ remaining ih =>
    have hop : collectRecent serde copy (remaining + 1) i result s [] =
        collectRecent serde copy remaining (i + 1) (result ++ (copy.trade? serde i).toList) s [] := by
      simp only [collectRecent, TradeDb.trade?, bind, Session.op]
      cases copy.trades.lookup i with
      | none => simp
      | some bytes => cases h : serde.tradeFromSlice bytes <;> simp [h, Except.toOption]
    rw [hop, ih, List.range'_succ]
    cases htrade : copy.trade? serde i with
    | none => simp [htrade]
    | some trade => simp [htrade]

theorem Holds.getRecentTrades (h : Logged serde log db) (n : ℕ) :
    handleGetRecentTrades serde n db [] =
      (.ok ((logTrades log).drop (log.length - min (min n log.length) maxPageSize)), db, []) := by
  have htotal := h.total_eq
  generalize hm : min (min n log.length) maxPageSize = m
  have hle : m ≤ log.length := hm ▸ (Nat.min_le_left _ _).trans (Nat.min_le_right _ _)
  have hsplit : log = log.take (log.length - m) ++ log.drop (log.length - m) :=
    (List.take_append_drop _ _).symm
  have hrange : (List.range' (log.length - m + 1) m).filterMap (db.trade? serde) =
      (logTrades log).drop (log.length - m) := by
    have hdrop := drop_logTrades (log.take (log.length - m)) (log.drop (log.length - m))
    have hread := filterMap_logRow (log.take (log.length - m)) (log.drop (log.length - m))
    rw [← hsplit, List.length_take, List.length_drop, Nat.min_eq_left (Nat.sub_le _ _),
      Nat.sub_sub_self hle] at hread
    rw [← hsplit, List.length_take, Nat.min_eq_left (Nat.sub_le _ _)] at hdrop
    rw [hdrop, ← hread]
    exact List.filterMap_congr fun i _ => h.trade?_eq i
  simp only [handleGetRecentTrades, bind, Session.begin, Session.op, htotal, hm]
  by_cases hzero : m = 0
  · subst hzero
    have hnil : (logTrades log).drop log.length = [] := by simp [logTrades]
    simp [pure, hnil]
  · rw [if_neg hzero, collectRecent_fine, List.nil_append, hrange]

end Reads

variable {serde : SerdeJson} {checks : Bool}

/-- Messages handled one after the other, with reads, restarts and failing publications in
between but no failing database, leave the tables of the log of their rows, and the reads
return its length and its end. -/
theorem trade_log_refined {inputs : List (ClientInput Task Env)}
    {s : Clients.State Await Answer Outcome FeedStore} {es : List FeedEvent} {log : List Row}
    (run : (feed serde checks).machine.run (.initial .first) inputs = some (s, es))
    (serial : serialLog serde es = some ⟨log, none⟩) (noFailure : NoFailure es)
    (few : checks = false → log.length < 2 ^ 64) :
    s.store.db.tradesMeta.lookup "total" = some log.length ∧
    (∀ i, i ∈ s.store.db.trades ↔ 1 ≤ i ∧ i ≤ log.length) ∧
    (∀ k row, log[k]? = some row →
      s.store.db.trades.lookup (k + 1) = some (serde.tradeToVec (row.trade (k + 1)))) ∧
    (∀ id i, s.store.db.tradeIds.lookup id = some i ↔
      ∃ row, 1 ≤ i ∧ log[i - 1]? = some row ∧ id = s!"{i}-{row.price}") ∧
    handleGetTotalTradesCount s.store.db [] = (.ok log.length, s.store.db, []) ∧
    ∀ n, handleGetRecentTrades serde n s.store.db [] =
      (.ok ((logTrades log).drop (log.length - min (min n log.length) 100)), s.store.db, []) := by
  obtain ⟨Γ, hghosted⟩ := Clients.invariant (serially_preserved serde checks)
    (fun log followed => by
      obtain rfl := Option.some.inj followed.serial
      exact Serially.initial) run
  have hlogged := (hghosted.inv ⟨log, none⟩ ⟨serial, noFailure, fun h => few h⟩).quiet rfl
  refine ⟨hlogged.total, fun i => ?_, fun k row hrow => ?_, fun id i => ?_, ?_,
    hlogged.getRecentTrades⟩
  · rw [Table.mem_iff_isSome, hlogged.trades, Option.isSome_map]
    cases i with
    | zero => simp [logRow]
    | succ k =>
      have hrow : (logRow log (k + 1)).isSome = true ↔ k < log.length := by simp [logRow]
      rw [hrow]
      omega
  · rw [hlogged.trades, logRow, hrow, Option.map_some]
  · rw [hlogged.tradeIds]
    cases i with
    | zero => simp [logRow]
    | succ k => simp [logRow, tradeIdOf]
  · have htotal : handleGetTotalTradesCount s.store.db [] =
        (.ok s.store.db.total, s.store.db, []) := rfl
    rw [htotal, hlogged.total_eq]

/-- A message, a read in the middle of it and a failing publication; a restart; the same message
without a connection. -/
def serialInputs : List (ClientInput Task Env) :=
  [.spawn (.message tradeText true), .perform 0 .fine, .deliver 0, .perform 0 .fine, .deliver 0,
    .spawn .tradesCount, .perform 1 .fine, .deliver 1, .perform 0 .fine, .deliver 0,
    .perform 0 .fine, .deliver 0, .perform 0 ⟨[], .error "broken pipe"⟩, .deliver 0,
    .restart .fine, .spawn (.message tradeText false), .perform 2 .fine, .deliver 2,
    .perform 2 .fine, .deliver 2, .perform 2 .fine, .deliver 2, .perform 2 .fine, .deliver 2]

def tradeRowText : Row := ⟨"5541.2", "0.15", "1534614057.3", "s", "l", "", "XBT/USD"⟩

theorem serial_log_refined : ∃ s es,
    (feed tradeJson true).machine.run (.initial .first) serialInputs = some (s, es) ∧
    s.store.db.tradesMeta.lookup "total" = some 2 ∧
    handleGetRecentTrades tradeJson 1 s.store.db [] = (.ok [tradeRowText.trade 2], s.store.db, []) := by
  have hrun : ((feed tradeJson true).machine.run (.initial .first) serialInputs).map
      (fun p => (serialLog tradeJson p.2, p.2.all fun e => databaseError e = false)) =
        some (some ⟨[tradeRowText, tradeRowText], none⟩, true) := by
    decide +kernel
  obtain ⟨⟨s, es⟩, run, hes⟩ := Option.map_eq_some_iff.mp hrun
  obtain ⟨serial, hall⟩ := Prod.mk.inj hes
  have noFailure : NoFailure es := by simpa [NoFailure] using hall
  have h := trade_log_refined run serial noFailure (by decide)
  exact ⟨s, es, run, h.1, h.2.2.2.2.2 1⟩

end RustExperiments.TradeFeed
