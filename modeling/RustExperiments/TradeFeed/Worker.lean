/- module: RustExperiments/TradeFeed/Worker
   digest: Which requests end the worker thread under overflow checks, and the runs it survives. -/

import RustExperiments.TradeFeed.Writer
import RustExperiments.TradeFeed.Json

set_option autoImplicit false
set_option relaxedAutoImplicit false

namespace RustExperiments.TradeFeed

open RustExperiments.Lib RustExperiments.Lib.Proc

section Arithmetic

variable (serde : SerdeJson) (checks : Bool)

/-- `GetRecentTradesRequest::handle` with the arithmetic of `(total - n + 1)..=total` checked. -/
def handleGetRecentTradesChecked (self : ℕ) : Session TradeDb (List Trade) := do
  let readTxn ← .begin
  .op
  .op
  .op
  let total := readTxn.total
  let n := min (min self total) maxPageSize
  if n = 0 then pure []
  else do
    let before ← .checked (u64Sub checks total n)
    let first ← .checked (u64Add checks before 1)
    collectRecent serde readTxn (total + 1 - first) first []

/-- `handle` with every operation of the source that can overflow. -/
def DbRequest.handleChecked : (q : DbRequest) → Session TradeDb q.Response
  | .getRecentTrades n => handleGetRecentTradesChecked serde checks n
  | q => q.handle serde checks

variable {serde checks}

theorem collectRecent_checked (readTxn : TradeDb) (h : readTxn.total < u64Size) {n : ℕ}
    (positive : n ≠ 0) (le : n ≤ readTxn.total) :
    (do
      let before ← Session.checked (u64Sub checks readTxn.total n)
      let first ← Session.checked (u64Add checks before 1)
      collectRecent serde readTxn (readTxn.total + 1 - first) first []) =
    collectRecent serde readTxn n (readTxn.total - n + 1) [] := by
  have hsub : u64Sub checks readTxn.total n = some (readTxn.total - n) := u64Sub_of_le le
  have hadd : u64Add checks (readTxn.total - n) 1 = some (readTxn.total - n + 1) :=
    u64Fit_of_lt (by omega)
  have hcount : readTxn.total + 1 - (readTxn.total - n + 1) = n := by omega
  rw [hsub]
  change (Session.checked (u64Add checks (readTxn.total - n) 1) >>= fun first =>
    collectRecent serde readTxn (readTxn.total + 1 - first) first []) = _
  rw [hadd]
  change collectRecent serde readTxn (readTxn.total + 1 - (readTxn.total - n + 1)) _ [] = _
  rw [hcount]

/-- The counter is a `u64`, so neither operation of the recent trades overflows. -/
theorem handleChecked_eq (q : DbRequest) {db : TradeDb} (h : db.total < u64Size) (faults : Faults) :
    q.handleChecked serde checks db faults = q.handle serde checks db faults := by
  cases q with
  | getRecentTrades self =>
    refine Session.begin_bind_congr (fun faults => ?_) faults
    refine Session.op_bind_congr (fun faults => ?_) faults
    refine Session.op_bind_congr (fun faults => ?_) faults
    refine Session.op_bind_congr (fun faults => ?_) faults
    refine congrFun (congrFun ?_ db) faults
    refine ite_congr rfl (fun _ => rfl) fun hn => ?_
    exact collectRecent_checked db h hn (by omega)
  | _ => rfl

end Arithmetic

section Panics

open Session

/-- The end of the range is a `u64`. -/
def DbRequest.Fits : DbRequest → Prop
  | .getTradesByRange startIndex limit => startIndex + limit < u64Size
  | _ => True

variable {serde : SerdeJson} {db db' : TradeDb}

/-- With a counter that can still be counted up, only the end of a range overflows. -/
theorem handle_fits {q : DbRequest} (few : db.total + 1 < u64Size) (fits : q.Fits)
    (h : (q.handle serde true).Ends db (.error .panic) db') : False := by
  cases q with
  | storeTradeBatch batch =>
    rcases storeTradeBatch_ends h with ⟨_, _, hr⟩ | ⟨hr, _⟩ <;> cases hr
  | getTotalTradesCount =>
    rcases getTotalTradesCount_ends h with ⟨_, _, hr⟩ | ⟨hr, _⟩ <;> cases hr
  | getRecentTrades n =>
    rcases getRecentTrades_ends h with ⟨_, _, hr⟩ | ⟨_, hr⟩ <;> cases hr
  | getTradesByRange startIndex limit =>
    have hadd := (getTradesByRange_ends h).2 rfl
    rw [u64Add, u64Fit_of_lt fits] at hadd
    cases hadd
  | getNextTradeCounter =>
    rcases getNextTradeCounter_ends h with ⟨_, _, hr⟩ | ⟨_, hadd, _⟩ | ⟨_, _, hr, _⟩
    · cases hr
    · rw [u64Add, u64Fit_of_lt few] at hadd
      cases hadd
    · cases hr
  | checkIdExists id =>
    rcases checkIdExists_ends h with ⟨_, _, hr⟩ | ⟨hr, _⟩ <;> cases hr
  | storeIdWithIndex id index =>
    rcases storeIdWithIndex_ends h with ⟨_, _, hr⟩ | ⟨hr, _⟩ <;> cases hr

theorem range_panics {startIndex limit : ℕ} (h : u64Size ≤ startIndex + limit) :
    (handleGetTradesByRange serde true startIndex limit db []).1 = .error .panic := by
  have hadd : u64Add true startIndex limit = none := u64Fit_none_iff.mpr ⟨rfl, h⟩
  have hrange : handleGetTradesByRange serde true startIndex limit db [] =
      (checked (u64Add true startIndex limit) >>= fun endIndex =>
        collectRange serde db (endIndex - startIndex) startIndex []) db [] := rfl
  rw [hrange, hadd]
  rfl

theorem never_panics_iff (serde : SerdeJson) (q : DbRequest) (few : db.total + 1 < u64Size) :
    (∀ faults, (q.handleChecked serde true db faults).1 ≠ .error .panic) ↔ q.Fits := by
  constructor
  · intro never
    cases q with
    | getTradesByRange startIndex limit =>
      exact Nat.lt_of_not_le fun hle => never [] (range_panics hle)
    | _ => trivial
  · intro fits faults hpanic
    rw [handleChecked_eq q (by omega)] at hpanic
    have hends := ends_run (q.handle serde true) db faults
    rw [hpanic] at hends
    exact handle_fits few fits hends

end Panics

section Protocol

/-- The range that the route reads, with its defaults and its own limit, ends below 2^64. -/
def Task.Fits : Task → Prop
  | .trades startIndex limit =>
    (DbRequest.getTradesByRange (startIndex.getD 1) (min (limit.getD 100) maxBatchSize)).Fits
  | _ => True

def Await.Fits : Await → Prop
  | .run q => q.Fits
  | .publish _ _ => True

def rangeProtocol : Protocol Await Answer Task where
  allows task q := task.Fits → q.Fits
  next task _ _ := task

variable {serde : SerdeJson}

theorem allows_fits {w : Writer} (h : w ≠ .reader) {q : Await} (allowed : w.allows serde q) :
    q.Fits := by
  cases q with
  | publish channel payload => trivial
  | run q =>
    cases q with
    | getTradesByRange startIndex limit =>
      have hread : Await.IsRead (.run (.getTradesByRange startIndex limit)) := trivial
      exact absurd (Writer.allows_read hread allowed) h
    | _ => trivial

theorem task_fits (task : Task) :
    (task.start serde).Obeys rangeProtocol (fun _ _ => True) task := by
  cases task with
  | message text redisConnection =>
    refine (task_obeys serde (.message text redisConnection)).refine (fun w _ => w ≠ .reader)
      (fun _ _ _ h allowed _ => allows_fits h allowed) (fun _ _ q a h _ => Writer.next_reader h q a)
      (fun _ _ _ _ _ => trivial) ?_
    exact fun h => by cases h
  | tradesCount =>
    refine .await (fun _ => trivial) fun answer => ?_
    cases answer <;> exact .ret trivial
  | trades startIndex limit =>
    refine .await (fun fits => fits) fun answer => ?_
    cases answer <;> exact .ret trivial

end Protocol

section Runs

open Session

/-- The inputs under which the worker goes on: the range of every request to the route ends below
2^64, there are fewer than 2^64 - 1 trades, and a restart succeeds. -/
def Fitting (_es : List (ClientEvent Await Answer Outcome Task))
    (s : Clients.State Await Answer Outcome FeedStore) : ClientInput Task Env → Prop
  | .spawn task => task.Fits
  | .perform _ _ => s.store.db.total + 1 < u64Size
  | .restart env => Quiet env.faults
  | _ => True

variable {serde : SerdeJson}

theorem createTables_makes (db : TradeDb) :
    ∃ n db', Makes n createTables db () db' := by
  by_cases hnone : (db.tradesMeta.lookup "total").isNone
  · refine ⟨1 + (1 + (1 + (1 + (1 + (1 + (1 + 1)))))), db.setTotal 0, makes_bind (makes_begin db) ?_⟩
    refine makes_bind (makes_op db) (makes_bind (makes_op db) (makes_bind (makes_op db) ?_))
    refine makes_bind (makes_op db) (makes_bind (makes_op db) ?_)
    rw [if_pos hnone]
    exact makes_bind (makes_op db) (makes_commit db _)
  · refine ⟨1 + (1 + (1 + (1 + (1 + (1 + 1))))), db, makes_bind (makes_begin db) ?_⟩
    refine makes_bind (makes_op db) (makes_bind (makes_op db) (makes_bind (makes_op db) ?_))
    refine makes_bind (makes_op db) (makes_bind (makes_op db) ?_)
    rw [if_neg hnone]
    exact makes_commit db db

theorem reboot_alive {env : Env} (quiet : Quiet env.faults) (s : FeedStore) :
    (reboot env s).alive = true := by
  obtain ⟨n, db', hmakes⟩ := createTables_makes s.db
  rw [reboot, (hmakes env.faults).1 (quiet.take n)]

theorem answered {q : DbRequest} {env : Env} {s : FeedStore} (alive : s.alive = true)
    (few : s.db.total + 1 < u64Size) (fits : q.Fits) :
    (perform serde true (.run q) env s).2.alive = true ∧
      ((∃ v, (q.handleChecked serde true s.db env.faults).1 = .ok v ∧
        (perform serde true (.run q) env s).1 = .ok v) ∨
      ∃ e, (q.handleChecked serde true s.db env.faults).1 = .error (.error e) ∧
        (perform serde true (.run q) env s).1 = .error e) := by
  have hnever := (never_panics_iff serde q few).mpr fits env.faults
  rw [handleChecked_eq q (by omega)] at hnever ⊢
  simp only [perform, Service.serve, alive, if_true]
  revert hnever
  rcases q.handle serde true s.db env.faults with ⟨(e | _) | v, db, rest⟩ <;> intro hnever
  · exact ⟨rfl, Or.inr ⟨e, rfl, rfl⟩⟩
  · exact absurd rfl hnever
  · exact ⟨rfl, Or.inl ⟨v, rfl, rfl⟩⟩

theorem perform_alive {q : Await} {env : Env} {s : FeedStore} (alive : s.alive = true)
    (few : s.db.total + 1 < u64Size) (fits : q.Fits) :
    (perform serde true q env s).2.alive = true := by
  cases q with
  | run q => exact (answered alive few fits).1
  | publish channel payload => exact alive

theorem alive_preserved (serde : SerdeJson) :
    (feed serde true).PreservedUnder rangeProtocol (fun _ _ => True) id Fitting
      fun _ s Γ => s.alive = true ∧ ∀ i task, Γ i = some task → task.Fits where
  obeys := task_fits
  spawn task fits h _ _ := by
    refine ⟨h.1, fun i task' hi => ?_⟩
    rcases Clients.update_cases hi with ⟨_, heq⟩ | ⟨_, hold⟩
    · exact Option.some.inj heq ▸ fits
    · exact h.2 i task' hold
  perform i task q _ env few _ h ghost allowed := by
    refine ⟨perform_alive h.1 few (allowed (h.2 i task ghost)), fun j task' hj => ?_⟩
    rcases Clients.update_cases hj with ⟨_, heq⟩ | ⟨_, hold⟩
    · exact Option.some.inj heq ▸ h.2 i task ghost
    · exact h.2 j task' hold
  finish i task q env few _ h ghost allowed :=
    ⟨perform_alive h.1 few (allowed (h.2 i task ghost)),
      fun j task' hj => h.2 j task' (Clients.update_none_cases hj)⟩
  returned i _ _ h _ _ := ⟨h.1, fun j task' hj => h.2 j task' (Clients.update_none_cases hj)⟩
  cancel i _ h := ⟨h.1, fun j task' hj => h.2 j task' (Clients.update_none_cases hj)⟩
  restart env quiet _ := ⟨reboot_alive quiet _, fun _ _ h => by cases h⟩

end Runs

/-- Under overflow checks, with fewer than 2^64 - 1 trades: the `handle` of a request panics for no
outcomes of its storage operations exactly if it is not a range that ends at 2^64 or later; and in
every run in which the ranges of all requests to the route end below 2^64 the worker is alive in
every state, and answers every further request that fits with what its `handle` returned. -/
theorem worker_survives_iff_fits (serde : SerdeJson) :
    (∀ (q : DbRequest) (db : TradeDb), db.total + 1 < u64Size →
      ((∀ faults, (q.handleChecked serde true db faults).1 ≠ .error .panic) ↔ q.Fits)) ∧
    (∀ (startIndex limit : Option ℕ) (db : TradeDb), db.total + 1 < u64Size →
      ((∀ faults, (DbRequest.handleChecked serde true (.getTradesByRange (startIndex.getD 1)
        (min (limit.getD 100) maxBatchSize)) db faults).1 ≠ .error .panic) ↔
        startIndex.getD 1 + min (limit.getD 100) maxBatchSize < u64Size)) ∧
    ∀ (inputs : List (ClientInput Task Env)) (s : Clients.State Await Answer Outcome FeedStore)
      (es : List (ClientEvent Await Answer Outcome Task)),
      (feed serde true).machine.run (.initial .first) inputs = some (s, es) →
      Clients.Meets (feed serde true) Fitting [] (.initial .first) inputs →
      s.store.alive = true ∧
      ∀ (q : DbRequest) (env : Env), s.store.db.total + 1 < u64Size → q.Fits →
        (perform serde true (.run q) env s.store).2.alive = true ∧
        ((∃ v, (q.handleChecked serde true s.store.db env.faults).1 = .ok v ∧
          (perform serde true (.run q) env s.store).1 = .ok v) ∨
        ∃ e, (q.handleChecked serde true s.store.db env.faults).1 = .error (.error e) ∧
          (perform serde true (.run q) env s.store).1 = .error e) := by
  refine ⟨fun q db few => never_panics_iff serde q few,
    fun startIndex limit db few => never_panics_iff serde _ few, fun inputs s es run met => ?_⟩
  obtain ⟨Γ, h⟩ := Clients.invariant_under (alive_preserved serde)
    ⟨by rw [first_db], fun _ _ h => by cases h⟩ met run
  exact ⟨h.inv.1, fun q env few fits => answered h.inv.1 few fits⟩

def lastIndexRequested : List (ClientInput Task Env) :=
  [.spawn (.trades (some 18446744073709551615) (some 1)), .perform 0 .fine]

theorem last_index_kills_worker : ∃ s es,
    (feed tradeJson true).machine.run (.initial .first) lastIndexRequested = some (s, es) ∧
    (DbRequest.handleChecked tradeJson true (.getTradesByRange 18446744073709551615 1)
      FeedStore.first.db []).1 = .error .panic ∧
    s.store.alive = false ∧
    ∀ q env, perform tradeJson true (.run q) env s.store = (.error "channel closed", s.store) := by
  have hrun : ((feed tradeJson true).machine.run (.initial .first) lastIndexRequested).map
      (fun r => r.1.store.alive) = some false := by
    decide +kernel
  obtain ⟨⟨s, es⟩, run, hdead⟩ := Option.map_eq_some_iff.mp hrun
  exact ⟨s, es, run, range_panics (by decide), hdead, fun q env => Service.serve_dead _ env.faults hdead⟩

def lastRangeRequested : List (ClientInput Task Env) :=
  [.spawn (.trades (some 18446744073709551614) (some 1)), .perform 0 .fine, .deliver 0]

theorem last_range_answered : ∃ s es,
    (feed tradeJson true).machine.run (.initial .first) lastRangeRequested = some (s, es) ∧
    (∀ faults, (DbRequest.handleChecked tradeJson true (.getTradesByRange 18446744073709551614 1)
      FeedStore.first.db faults).1 ≠ .error .panic) ∧
    (perform tradeJson true (.run .getTotalTradesCount) .fine s.store).2.alive = true := by
  have hfew : FeedStore.first.db.total + 1 < u64Size := by
    rw [first_db, total_setTotal]
    decide
  have hrun : ((feed tradeJson true).machine.run (.initial .first) lastRangeRequested).map
      (fun r => r.1.store.db.total) = some 0 := by
    decide +kernel
  obtain ⟨⟨s, es⟩, run, htotal⟩ := Option.map_eq_some_iff.mp hrun
  obtain ⟨_, hrange, hruns⟩ := worker_survives_iff_fits tradeJson
  have hmeets : Clients.Meets (feed tradeJson true) Fitting [] (.initial .first)
      lastRangeRequested := by
    refine .cons (C := Fitting) (show 18446744073709551614 + 1 < u64Size by decide) fun t o h => ?_
    cases h
    refine .cons (C := Fitting) hfew fun t o h => ?_
    exact .cons (C := Fitting) trivial fun _ _ _ => Clients.meets_nil
  obtain ⟨_, hanswered⟩ := hruns _ s es run hmeets
  refine ⟨s, es, run, (hrange (some 18446744073709551614) (some 1) _ hfew).mpr (by decide), ?_⟩
  exact (hanswered .getTotalTradesCount .fine (by rw [htotal]; decide) trivial).1

end RustExperiments.TradeFeed
