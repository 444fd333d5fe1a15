/- module: RustExperiments/TradeFeed/Stored
   digest: A handling that completes has stored every row, and it completes where nothing fails. -/

import RustExperiments.TradeFeed.Atomicity
import RustExperiments.TradeFeed.RangeReads

set_option autoImplicit false
set_option relaxedAutoImplicit false

namespace RustExperiments.TradeFeed

open RustExperiments.Lib

section Rows

variable (serde : SerdeJson)

/-- Every row stands under an index of its own, in order behind the counter of before. -/
def AllStored (base : TradeDb) (rows : List Row) (db : TradeDb) : Prop :=
  ∀ (k : ℕ) (row : Row), rows[k]? = some row →
    db.trades.lookup (base.total + 1 + k) =
      some (serde.tradeToVec (row.trade (base.total + 1 + k)))

def Batched (base : TradeDb) (rows : List Row) (db : TradeDb) : Writer → Prop
  | .publishing _ => AllStored serde base rows db
  | .halted w => Batched base rows db w
  | _ => True

variable {serde} {checks : Bool} {base db db' : TradeDb} {rows : List Row} {requests : ℕ}
  {w : Writer}

theorem Batched.perform (h : Batched serde base rows db w) (midway : Midway base rows requests db w)
    {q : Await} {a : Answer q} (allowed : w.allows serde q)
    (effect : Effect serde checks db q a db') : Batched serde base rows db' (w.next q a) := by
  have hwrites : w ≠ .reader := fun hw => by
    rw [hw] at midway
    exact midway.elim
  have hmoves := Writer.moves hwrites allowed effect
  generalize w.next q a = w' at hmoves ⊢
  cases hmoves with
  | failed => exact h
  | counted => trivial
  | known => trivial
  | fresh => trivial
  | reserved => trivial
  | stored batch =>
    obtain ⟨done, hrows, rfl, _, _⟩ := midway
    rw [List.append_nil] at hrows
    subst hrows
    intro k row hrow
    exact storeTrades_numbered serde db (base.total + 1) hrow
  | published => exact h
  | unpublished => exact h

end Rows

section Complete

variable {serde : SerdeJson} {checks : Bool} {text : String} {redisConnection : Bool}
  {s t : FeedStore} {answers : List (Σ q, Answer q)}

theorem Completes.stored (h : Completes serde checks text redisConnection s t answers)
    (ground : Ground s.db)
    (few : checks = false → s.db.total + (messageRows serde text).length < 2 ^ 64) :
    AllStored serde s.db (messageRows serde text) t.db := by
  have hrequests := h.requests ground few
  obtain ⟨⟨inputs, r, run⟩, _⟩ := h
  obtain ⟨w, _, hmidway, hbatched⟩ := Proc.machine_obeys (fun w answers s' =>
    Midway s.db (messageRows serde text) (requestsAnswered answers) s'.db w ∧
      Batched serde s.db (messageRows serde text) s'.db w)
    (fun w answers s' q env hinv allowed =>
      have heffect := perform_effect serde checks q env s'
      ⟨hinv.1.perform ground allowed heffect few, hinv.2.perform hinv.1 allowed heffect⟩)
    (task_obeys serde (.message text redisConnection))
    ⟨⟨[], rfl, rfl, rfl, Reserving.begin ground⟩, trivial⟩ run
  rcases hrequests with hnil | hall
  · intro k row hrow
    rw [hnil] at hrow
    cases hrow
  · rcases hmidway.phase hall with ⟨trades, rfl⟩ | ⟨trades, rfl⟩
    · exact hbatched
    · exact hbatched

end Complete

section Fine

open Session

variable (serde : SerdeJson) (checks : Bool) {db : TradeDb}

theorem getNextTradeCounter_makes (fits : db.total + 1 < u64Size) :
    ∃ n, Makes n (DbRequest.getNextTradeCounter.handle serde checks) db (db.total + 1)
      (db.setTotal (db.total + 1)) := by
  have hadd : u64Add checks db.total 1 = some (db.total + 1) := u64Fit_of_lt fits
  refine ⟨1 + (1 + (1 + (0 + (1 + (1 + (1 + 1)))))), makes_bind (makes_begin db)
    (makes_bind (makes_op db) (makes_bind (makes_op db) ?_))⟩
  simp only [hadd]
  exact makes_bind (makes_checked (db.total + 1) db) (makes_bind (makes_begin db)
    (makes_bind (makes_op db) (makes_bind (makes_op db) (makes_bind_pure (makes_commit db _)))))

theorem checkIdExists_makes (id : String) :
    ∃ n, Makes n ((DbRequest.checkIdExists id).handle serde checks) db
      (db.tradeIds.lookup id).isSome db :=
  ⟨_, makes_bind (makes_begin db) (makes_bind (makes_op db) (makes_bind (makes_op db)
    (makes_pure _ db)))⟩

theorem storeIdWithIndex_makes (id : String) (index : ℕ) :
    ∃ n, Makes n ((DbRequest.storeIdWithIndex id index).handle serde checks) db ()
      (db.storeId id index) :=
  ⟨_, makes_bind (makes_begin db) (makes_bind (makes_op db) (makes_bind (makes_op db)
    (makes_commit db _)))⟩

theorem insertTrades_makes (batch : List (Trade × ℕ)) (copy : TradeDb) :
    ∃ n, Makes n (insertTrades serde batch copy) db (copy.storeTrades serde batch) db := by
  induction batch generalizing copy with
  | nil => exact ⟨0, makes_pure copy db⟩
  | cons entry batch ih =>
    obtain ⟨n, hrest⟩ := ih
      { copy with
        trades := copy.trades.insert entry.2 (serde.tradeToVec entry.1)
        tradeIds := copy.tradeIds.insert entry.1.id entry.2 }
    exact ⟨_, makes_bind (makes_op db) (makes_bind (makes_op db) hrest)⟩

theorem storeTradeBatch_makes (batch : List (Trade × ℕ)) :
    ∃ n, Makes n ((DbRequest.storeTradeBatch batch).handle serde checks) db batch.length
      (db.storeTrades serde batch) := by
  obtain ⟨n, hinsert⟩ := insertTrades_makes serde batch db
  exact ⟨_, makes_bind (makes_begin db) (makes_bind (makes_op db) (makes_bind (makes_op db)
    (makes_bind hinsert (makes_bind_pure (makes_commit db _)))))⟩

variable {serde}

theorem perform_fine {q : DbRequest} {v : q.Response} {s : FeedStore} (alive : s.alive = true)
    (h : ∃ n, Makes n (q.handle serde checks) s.db v db) :
    perform serde checks (.run q) .fine s = (.ok v, ⟨db, true⟩) := by
  obtain ⟨n, hmakes⟩ := h
  refine (Service.serve_makes alive hmakes).1 fun fault hfault => ?_
  cases List.mem_of_mem_take hfault

variable {base : TradeDb} {rows : List Row} {requests : ℕ} {w : Writer}

theorem answered_fine {s : FeedStore} (alive : s.alive = true)
    (midway : Midway base rows requests s.db w) (fits : base.total + rows.length < 2 ^ 64)
    {q : Await} (allowed : w.allows serde q) :
    answeredError ⟨q, (perform serde checks q .fine s).1⟩ = false ∧
      (perform serde checks q .fine s).2.alive = true := by
  rcases w with ⟨_ | ⟨row, todo⟩, batch⟩ | ⟨row, index, todo, batch⟩ | ⟨row, index, todo, batch⟩ |
    ⟨_ | ⟨trade, trades⟩⟩ | w | _
  · obtain ⟨_, rfl⟩ := allowed
    rw [perform_fine checks alive (storeTradeBatch_makes serde checks batch)]
    exact ⟨rfl, rfl⟩
  · obtain rfl := allowed
    obtain ⟨done, hrows, _, _, hreserving⟩ := midway
    have htotal : s.db.total + 1 < 2 ^ 64 := by
      rw [hreserving.total]
      rw [hrows, List.length_append, List.length_cons] at fits
      omega
    rw [perform_fine checks alive (getNextTradeCounter_makes serde checks htotal)]
    exact ⟨rfl, rfl⟩
  · obtain rfl := allowed
    rw [perform_fine checks alive (checkIdExists_makes serde checks _)]
    exact ⟨rfl, rfl⟩
  · obtain rfl := allowed
    rw [perform_fine checks alive (storeIdWithIndex_makes serde checks _ index)]
    exact ⟨rfl, rfl⟩
  · exact allowed.elim
  · obtain rfl := allowed
    exact ⟨rfl, alive⟩
  · exact allowed.elim
  · exact midway.elim

/-- Where nothing fails, code that keeps to the protocol of a writer comes to its return. -/
theorem finishes_fine (ground : Ground base) (fits : base.total + rows.length < 2 ^ 64)
    {post : Writer → Outcome → Prop} {p : Proc Await Answer Outcome}
    (obeys : p.Obeys (writerProtocol serde) post w) {s : FeedStore} (alive : s.alive = true)
    {before : List (Σ q, Answer q)}
    (midway : Midway base rows (requestsAnswered before) s.db w) :
    ∃ inputs r t answers, (handling serde checks).run (p, s) inputs = some ((.ret r, t), answers) ∧
      ∀ a ∈ answers, answeredError a = false := by
  induction obeys generalizing s before with
  | @ret _ r _ => exact ⟨[], r, s, [], rfl, by simp⟩
  | @await w q k allowed _ ih =>
    obtain ⟨hanswer, halive⟩ := answered_fine checks alive midway fits allowed
    have hmidway := midway.perform ground allowed (perform_effect serde checks q .fine s)
      fun _ => fits
    obtain ⟨inputs, r, t, answers, run, hanswers⟩ := ih _ halive hmidway
    refine ⟨.fine :: inputs, r, t, ⟨q, (perform serde checks q .fine s).1⟩ :: answers,
      (Machine.run_cons_iff _).mpr ⟨_, _, _, rfl, run, rfl⟩, ?_⟩
    intro a ha
    rcases List.mem_cons.mp ha with rfl | ha
    · exact hanswer
    · exact hanswers a ha

theorem completes_fine {s : FeedStore} (alive : s.alive = true) (ground : Ground s.db)
    {text : String} (fits : s.db.total + (messageRows serde text).length < 2 ^ 64)
    (redisConnection : Bool) :
    ∃ t answers, Completes serde checks text redisConnection s t answers := by
  have hmidway : Midway s.db (messageRows serde text) (requestsAnswered []) s.db
      (.loop (messageRows serde text) []) := ⟨[], rfl, rfl, rfl, Reserving.begin ground⟩
  obtain ⟨inputs, r, t, answers, run, hanswers⟩ := finishes_fine checks ground fits
    (task_obeys serde (.message text redisConnection)) alive hmidway
  exact ⟨t, answers, ⟨inputs, r, run⟩, hanswers⟩

end Fine

end RustExperiments.TradeFeed
