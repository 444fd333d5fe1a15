/- module: RustExperiments/TradeFeed/Handling
   digest: One message handled alone, and how the tables stand wherever it stops. -/

import RustExperiments.TradeFeed.Log

set_option autoImplicit false
set_option relaxedAutoImplicit false

namespace RustExperiments.TradeFeed

open RustExperiments.Lib

section Handling

variable (serde : SerdeJson) (checks : Bool)

/-- A task alone with the worker. Its run may end anywhere: with a return, or short of one when
the task is aborted or the process dies. -/
def handling : Machine (Proc Await Answer Outcome × FeedStore) Env (Σ q, Answer q) :=
  Proc.machine (perform serde checks)

def answeredOk : (Σ q, Answer q) → Bool
  | ⟨.run _, .ok _⟩ => true
  | _ => false

def answeredError : (Σ q, Answer q) → Bool
  | ⟨.run _, .error _⟩ => true
  | _ => false

def published : (Σ q, Answer q) → Bool
  | ⟨.publish _ _, _⟩ => true
  | _ => false

def requestsAnswered (answers : List (Σ q, Answer q)) : ℕ := answers.countP answeredOk

/-- The message is handled completely: its handler returns and no request to the database
fails. -/
def Completes (text : String) (redisConnection : Bool) (s t : FeedStore)
    (answers : List (Σ q, Answer q)) : Prop :=
  (∃ inputs r, (handling serde checks).run ((Task.message text redisConnection).start serde, s)
    inputs = some ((.ret r, t), answers)) ∧ ∀ a ∈ answers, answeredError a = false

/-- Both tables know the indices up to `n` only, and identifiers of the one form. -/
structure Bounded (n : ℕ) (db : TradeDb) : Prop where
  keys : ∀ i v, db.trades.lookup i = some v → i ≤ n
  ids : ∀ id i, db.tradeIds.lookup id = some i → i ≤ n ∧ ∃ price, id = tradeIdOf i price

abbrev Ground (db : TradeDb) : Prop := Bounded db.total db

theorem Appending.ground {es : List FeedEvent} {db : TradeDb} {Γ : ℕ → Option Writer}
    (h : Appending es db Γ) : Ground db := ⟨h.keys, h.ids⟩

/-- After `n` counters and the identifiers of `done`, from the tables `base` on. -/
structure Reserving (base db : TradeDb) (n : ℕ) (done : List Row) : Prop where
  total : db.total = base.total + n
  trades : db.trades = base.trades
  ids : ∀ id i, db.tradeIds.lookup id = some i →
    i ≤ base.total + done.length ∧ ∃ price, id = tradeIdOf i price
  unchanged : n = 0 → db = base

def Midway (base : TradeDb) (rows : List Row) (requests : ℕ) (db : TradeDb) : Writer → Prop
  | .loop todo batch => ∃ done, rows = done ++ todo ∧ batch = numbered (base.total + 1) done ∧
    requests = 3 * done.length ∧ Reserving base db done.length done
  | .counted row index todo batch => ∃ done, rows = done ++ row :: todo ∧
    batch = numbered (base.total + 1) done ∧ index = base.total + 1 + done.length ∧
    requests = 3 * done.length + 1 ∧ Reserving base db (done.length + 1) done
  | .checked row index todo batch => ∃ done, rows = done ++ row :: todo ∧
    batch = numbered (base.total + 1) done ∧ index = base.total + 1 + done.length ∧
    requests = 3 * done.length + 2 ∧ Reserving base db (done.length + 1) done
  | .publishing _ => rows ≠ [] ∧ requests = 3 * rows.length + 1 ∧
    db.total = base.total + rows.length ∧ (db.trades.lookup (base.total + 1)).isSome ∧ Ground db
  | .halted w => (∀ w', w ≠ .halted w') ∧ Midway base rows requests db w
  | .reader => False

def Writer.Failed : Writer → Prop
  | .halted (.publishing _) => False
  | .halted _ => True
  | _ => False

end Handling

section Steps

variable {serde : SerdeJson} {checks : Bool} {base db db' : TradeDb} {rows done : List Row}
  {requests : ℕ} {w : Writer}

theorem Reserving.begin (ground : Ground base) : Reserving base base 0 [] :=
  ⟨rfl, rfl, ground.ids, fun _ => rfl⟩

theorem Reserving.counted {n : ℕ} (h : Reserving base db n done) :
    Reserving base (db.setTotal (base.total + 1 + n)) (n + 1) done :=
  ⟨by rw [total_setTotal]; omega, h.trades, h.ids, nofun⟩

theorem Reserving.fresh {n : ℕ} (h : Reserving base db n done) (price : String) :
    db.tradeIds.lookup (tradeIdOf (base.total + 1 + done.length) price) = none := by
  cases hlookup : db.tradeIds.lookup (tradeIdOf (base.total + 1 + done.length) price) with
  | none => rfl
  | some i =>
    obtain ⟨hle, price', hid⟩ := h.ids _ i hlookup
    rw [← tradeIdOf_injective hid] at hle
    omega

theorem Reserving.reserved (h : Reserving base db (done.length + 1) done) (row : Row) :
    Reserving base
      (db.storeId (tradeIdOf (base.total + 1 + done.length) row.price) (base.total + 1 + done.length))
      (done ++ [row]).length (done ++ [row]) := by
  refine ⟨by rw [total_storeId, h.total, List.length_append, List.length_singleton], h.trades,
    fun id i hi => ?_, by simp⟩
  rw [tradeIds_storeId, Table.lookup_insert_ite] at hi
  rw [List.length_append, List.length_singleton]
  split_ifs at hi with hid
  · cases hi
    exact ⟨by omega, row.price, hid⟩
  · obtain ⟨hle, hprice⟩ := h.ids id i hi
    exact ⟨by omega, hprice⟩

theorem Bounded.storeTrades {n : ℕ} (h : Bounded n db) {i : ℕ} (fits : i + rows.length ≤ n + 1) :
    Bounded n (db.storeTrades serde (numbered i rows)) := by
  induction rows using List.reverseRecOn with
  | nil => exact h
  | append_singleton rows row ih =>
    rw [List.length_append, List.length_singleton] at fits
    have hrows := ih (by omega)
    rw [numbered_concat, storeTrades_concat]
    constructor
    · intro j v hj
      rw [Table.lookup_insert_ite] at hj
      split_ifs at hj with heq
      · omega
      · exact hrows.keys j v hj
    · intro id j hj
      rw [Table.lookup_insert_ite] at hj
      split_ifs at hj with heq
      · cases hj
        exact ⟨by omega, row.price, heq⟩
      · exact hrows.ids id j hj

theorem storeTrades_numbered (serde : SerdeJson) (db : TradeDb) (i : ℕ) {k : ℕ} {row : Row}
    (h : rows[k]? = some row) :
    (db.storeTrades serde (numbered i rows)).trades.lookup (i + k) =
      some (serde.tradeToVec (row.trade (i + k))) := by
  induction rows using List.reverseRecOn with
  | nil => cases h
  | append_singleton rows last ih =>
    rw [numbered_concat, storeTrades_concat, Table.lookup_insert_ite]
    split_ifs with hk
    · obtain rfl : k = rows.length := by omega
      rw [List.getElem?_concat_length] at h
      rw [Option.some.inj h]
    · have hlt : k < rows.length := by
        have hle := (List.getElem?_eq_some_iff.mp h).1
        rw [List.length_append, List.length_singleton] at hle
        omega
      rw [List.getElem?_append_left hlt] at h
      exact ih h

theorem Reserving.stored (serde : SerdeJson) (h : Reserving base db rows.length rows)
    (ground : Ground base) (nonempty : rows ≠ []) :
    (db.storeTrades serde (numbered (base.total + 1) rows)).total = base.total + rows.length ∧
    ((db.storeTrades serde (numbered (base.total + 1) rows)).trades.lookup
      (base.total + 1)).isSome ∧
    Ground (db.storeTrades serde (numbered (base.total + 1) rows)) := by
  have hbounded : Ground db := by
    refine ⟨fun i v hi => ?_, fun id i hi => ?_⟩
    · rw [h.trades] at hi
      exact (ground.keys i v hi).trans (by rw [h.total]; exact Nat.le_add_right _ _)
    · rw [h.total]
      exact h.ids id i hi
  obtain ⟨row, hrow⟩ : ∃ row, rows[0]? = some row := by
    rw [← List.head?_eq_getElem?]
    exact ⟨_, List.head?_eq_some_head nonempty⟩
  refine ⟨by rw [total_storeTrades, h.total], ?_, ?_⟩
  · have hfirst := storeTrades_numbered serde db (base.total + 1) hrow
    rw [Nat.add_zero] at hfirst
    rw [hfirst]
    rfl
  · rw [Ground, total_storeTrades]
    exact hbounded.storeTrades (by rw [h.total]; omega)

theorem answered_ok (answers : List (Σ q, Answer q)) (q : DbRequest) (v : q.Response) :
    requestsAnswered (answers ++ [⟨.run q, .ok v⟩]) = requestsAnswered answers + 1 := by
  simp [requestsAnswered, answeredOk]

theorem answered_error (answers : List (Σ q, Answer q)) (q : DbRequest) (e : String) :
    requestsAnswered (answers ++ [⟨.run q, .error e⟩]) = requestsAnswered answers := by
  simp [requestsAnswered, answeredOk]

theorem answered_publish (answers : List (Σ q, Answer q)) (channel payload : String)
    (r : Except String Unit) :
    requestsAnswered (answers ++ [⟨.publish channel payload, r⟩]) = requestsAnswered answers := by
  simp [requestsAnswered, answeredOk]

theorem Midway.perform {answers : List (Σ q, Answer q)} (ground : Ground base)
    (h : Midway base rows (requestsAnswered answers) db w) {q : Await} {a : Answer q}
    (allowed : w.allows serde q) (effect : Effect serde checks db q a db')
    (few : checks = false → base.total + rows.length < 2 ^ 64) :
    Midway base rows (requestsAnswered (answers ++ [⟨q, a⟩])) db' (w.next q a) := by
  have hwrites : w ≠ .reader := fun hw => by
    rw [hw] at h
    exact h.elim
  have hmoves := Writer.moves hwrites allowed effect
  generalize w.next q a = w' at hmoves ⊢
  cases hmoves with
  | failed _ q e =>
    rw [answered_error]
    refine ⟨fun w' hw => ?_, h⟩
    rw [hw] at allowed
    exact allowed.elim
  | counted row todo batch new advanced =>
    obtain ⟨done, hrows, hbatch, hrequests, hreserving⟩ := h
    rw [hreserving.total] at advanced
    have hnew : new = base.total + 1 + done.length := by
      have hexact : base.total + done.length + 1 = base.total + 1 + done.length := by omega
      rw [← hexact]
      refine u64Add_exact advanced fun hchecks => ?_
      have hfew := few hchecks
      rw [hrows, List.length_append, List.length_cons] at hfew
      have hlt : base.total + done.length + 1 < 2 ^ 64 := by omega
      exact hlt
    subst hnew
    rw [answered_ok, hrequests]
    exact ⟨done, hrows, hbatch, rfl, rfl, hreserving.counted⟩
  | known row index todo batch found =>
    obtain ⟨done, _, _, hindex, _, hreserving⟩ := h
    rw [hindex, hreserving.fresh] at found
    cases found
  | fresh row index todo batch _ =>
    obtain ⟨done, hrows, hbatch, hindex, hrequests, hreserving⟩ := h
    rw [answered_ok, hrequests]
    exact ⟨done, hrows, hbatch, hindex, rfl, hreserving⟩
  | reserved row index todo batch =>
    obtain ⟨done, hrows, hbatch, hindex, hrequests, hreserving⟩ := h
    rw [answered_ok, hrequests, hindex]
    refine ⟨done ++ [row], by simp [hrows], by rw [numbered_concat, hbatch], ?_,
      hreserving.reserved row⟩
    rw [List.length_append, List.length_singleton]
    omega
  | stored batch hne =>
    obtain ⟨done, hrows, rfl, hrequests, hreserving⟩ := h
    rw [List.append_nil] at hrows
    subst hrows
    have hrows : rows ≠ [] := fun hnil => hne (numbered_eq_nil.mpr hnil)
    obtain ⟨htotal, hfirst, hground⟩ := Reserving.stored serde hreserving ground hrows
    rw [answered_ok, hrequests]
    exact ⟨hrows, rfl, htotal, hfirst, hground⟩
  | published trade trades =>
    rw [answered_publish]
    exact h
  | unpublished trade trades e =>
    rw [answered_publish]
    exact ⟨fun _ hw => (by cases hw), h⟩

theorem not_failed_of_allows {q : Await} (allowed : w.allows serde q) : ¬ w.Failed := by
  rcases w with _ | _ | _ | _ | _ | _ <;> first | exact allowed.elim | exact not_false

theorem next_failed {q : Await} {a : Answer q} (notReader : w ≠ .reader)
    (allowed : w.allows serde q) (effect : Effect serde checks db q a db') :
    (w.next q a).Failed ↔ answeredError ⟨q, a⟩ = true := by
  have hmoves := Writer.moves notReader allowed effect
  generalize w.next q a = w' at hmoves ⊢
  cases hmoves with
  | failed _ q e =>
    rcases w with _ | _ | _ | ⟨_ | _⟩ | _ | _
    · exact iff_of_true trivial rfl
    · exact iff_of_true trivial rfl
    · exact iff_of_true trivial rfl
    · exact allowed.elim
    · cases allowed
    · exact allowed.elim
    · exact absurd rfl notReader
  | counted => exact iff_of_false not_false nofun
  | known => exact iff_of_false not_false nofun
  | fresh => exact iff_of_false not_false nofun
  | reserved => exact iff_of_false not_false nofun
  | stored => exact iff_of_false not_false nofun
  | published => exact iff_of_false not_false nofun
  | unpublished => exact iff_of_false not_false nofun

theorem Midway.tables (h : Midway base rows requests db w) :
    ((rows = [] ∨ requests = 0) ∧ db = base) ∨
    (rows ≠ [] ∧ 0 < requests ∧ requests ≤ 3 * rows.length ∧ db.total ≠ base.total ∧
      db.trades = base.trades) ∨
    (rows ≠ [] ∧ 3 * rows.length + 1 ≤ requests ∧ db.total = base.total + rows.length ∧
      (db.trades.lookup (base.total + 1)).isSome ∧ Ground db) := by
  induction w with
  | loop todo batch =>
    obtain ⟨done, rfl, _, hrequests, hreserving⟩ := h
    rcases done with _ | ⟨row, done⟩
    · exact Or.inl ⟨Or.inr hrequests, hreserving.unchanged rfl⟩
    · have htotal := hreserving.total
      have hlength : (row :: done ++ todo).length = done.length + todo.length + 1 := by simp
      rw [List.length_cons] at hrequests htotal
      exact Or.inr (Or.inl ⟨nofun, by omega, by omega, by omega, hreserving.trades⟩)
  | counted row index todo batch =>
    obtain ⟨done, rfl, _, _, hrequests, hreserving⟩ := h
    have htotal := hreserving.total
    have hlength : (done ++ row :: todo).length = done.length + (todo.length + 1) := by simp
    exact Or.inr (Or.inl ⟨by simp, by omega, by omega, by omega, hreserving.trades⟩)
  | checked row index todo batch =>
    obtain ⟨done, rfl, _, _, hrequests, hreserving⟩ := h
    have htotal := hreserving.total
    have hlength : (done ++ row :: todo).length = done.length + (todo.length + 1) := by simp
    exact Or.inr (Or.inl ⟨by simp, by omega, by omega, by omega, hreserving.trades⟩)
  | publishing trades =>
    obtain ⟨hrows, hrequests, htotal, hfirst⟩ := h
    exact Or.inr (Or.inr ⟨hrows, hrequests.ge, htotal, hfirst⟩)
  | halted w ih => exact ih h.2
  | reader => exact h.elim

theorem Midway.complete (h : Midway base rows requests db w) (ended : w.Ended)
    (unfailed : ¬ w.Failed) : rows = [] ∨ 3 * rows.length + 1 ≤ requests := by
  rcases w with ⟨_ | _, _ | _⟩ | _ | _ | trades | ⟨_ | _ | _ | trades | _ | _⟩ | _
  · obtain ⟨done, rfl, hbatch, _⟩ := h
    obtain rfl := numbered_eq_nil.mp hbatch.symm
    exact Or.inl rfl
  · exact ended.elim
  · exact ended.elim
  · exact ended.elim
  · exact ended.elim
  · exact ended.elim
  · exact Or.inr h.2.1.ge
  · exact absurd trivial unfailed
  · exact absurd trivial unfailed
  · exact absurd trivial unfailed
  · exact Or.inr h.2.2.1.ge
  · exact absurd trivial unfailed
  · exact absurd trivial unfailed
  · exact h.elim

end Steps

section Runs

open Proc

variable {serde : SerdeJson} {checks : Bool} {text : String} {redisConnection : Bool}
  {s s' t : FeedStore} {answers : List (Σ q, Answer q)}

/-- Wherever a handling stops, its requests so far tell how the tables stand. -/
theorem handling_stops (ground : Ground s.db)
    (few : checks = false → s.db.total + (messageRows serde text).length < 2 ^ 64)
    {inputs : List Env} {p : Proc Await Answer Outcome}
    (run : (handling serde checks).run ((Task.message text redisConnection).start serde, s) inputs =
      some ((p, s'), answers)) :
    ∃ w : Writer, p.Obeys (writerProtocol serde) (fun w _ => w.Ended) w ∧
      Midway s.db (messageRows serde text) (requestsAnswered answers) s'.db w ∧
      ((∃ a ∈ answers, answeredError a = true) ↔ w.Failed) := by
  refine machine_obeys (fun w answers s' =>
    Midway s.db (messageRows serde text) (requestsAnswered answers) s'.db w ∧
      ((∃ a ∈ answers, answeredError a = true) ↔ w.Failed)) ?_
    (task_obeys serde (.message text redisConnection)) ?_ run
  · rintro w answers s' q env ⟨hmidway, hfailed⟩ allowed
    have heffect := perform_effect serde checks q env s'
    refine ⟨hmidway.perform ground allowed heffect few, ?_⟩
    have hreader : w ≠ .reader := fun hw => by
      rw [hw] at hmidway
      exact hmidway.elim
    have hbefore := hfailed.not.mpr (not_failed_of_allows allowed)
    have hnext := next_failed hreader allowed heffect
    rw [show (writerProtocol serde).next w q = w.next q from rfl, hnext]
    constructor
    · rintro ⟨a, ha, herror⟩
      rcases List.mem_append.mp ha with hold | hnew
      · exact absurd ⟨a, hold, herror⟩ hbefore
      · rwa [List.mem_singleton.mp hnew] at herror
    · exact fun herror => ⟨_, by simp, herror⟩
  · refine ⟨⟨[], rfl, rfl, rfl, Reserving.begin ground⟩, ?_⟩
    exact iff_of_false (by simp) not_false

theorem returned_of_silent {w : Writer} {p : Proc Await Answer Outcome}
    {post : Writer → Outcome → Prop} (obeys : p.Obeys (writerProtocol serde) post w)
    (silent : ∀ q, ¬ w.allows serde q) : ∃ r, p = .ret r := by
  cases obeys with
  | ret _ => exact ⟨_, rfl⟩
  | await allowed _ => exact absurd allowed (silent _)

theorem publications_finish (checks : Bool) {trades : List Trade} {p : Proc Await Answer Outcome}
    {post : Writer → Outcome → Prop}
    (obeys : p.Obeys (writerProtocol serde) post (.publishing trades)) (s : FeedStore) :
    ∃ inputs r answers, (handling serde checks).run (p, s) inputs = some ((.ret r, s), answers) ∧
      ∀ a ∈ answers, answeredError a = false := by
  induction trades generalizing p with
  | nil =>
    obtain ⟨r, rfl⟩ := returned_of_silent obeys fun _ => not_false
    exact ⟨[], r, [], rfl, by simp⟩
  | cons trade trades ih =>
    cases obeys with
    | ret _ => exact ⟨[], _, [], rfl, by simp⟩
    | @await _ q k allowed rest =>
      obtain rfl := allowed
      obtain ⟨inputs, r, answers, run, hanswers⟩ := ih (rest (.ok ()))
      refine ⟨.fine :: inputs, r, ⟨.publish "trades" (serde.tradeToString trade), .ok ()⟩ :: answers,
        (Machine.run_cons_iff _).mpr ⟨_, _, _, rfl, run, rfl⟩, ?_⟩
      intro a ha
      rcases List.mem_cons.mp ha with rfl | ha
      · rfl
      · exact hanswers a ha

theorem Completes.requests (h : Completes serde checks text redisConnection s t answers)
    (ground : Ground s.db)
    (few : checks = false → s.db.total + (messageRows serde text).length < 2 ^ 64) :
    messageRows serde text = [] ∨
      3 * (messageRows serde text).length + 1 ≤ requestsAnswered answers := by
  obtain ⟨⟨inputs, r, run⟩, unfailed⟩ := h
  obtain ⟨w, obeys, hmidway, hfailed⟩ := handling_stops ground few run
  have hended : w.Ended := by
    cases obeys with
    | ret ended => exact ended
  refine hmidway.complete hended fun hw => ?_
  obtain ⟨a, ha, herror⟩ := hfailed.mpr hw
  rw [unfailed a ha] at herror
  cases herror

theorem Completes.tables (h : Completes serde checks text redisConnection s t answers)
    (ground : Ground s.db)
    (few : checks = false → s.db.total + (messageRows serde text).length < 2 ^ 64) :
    (messageRows serde text = [] ∧ t.db = s.db) ∨
      (messageRows serde text ≠ [] ∧ t.db.total = s.db.total + (messageRows serde text).length ∧
        (t.db.trades.lookup (s.db.total + 1)).isSome ∧ Ground t.db) := by
  have hcomplete := h.requests ground few
  obtain ⟨⟨inputs, r, run⟩, unfailed⟩ := h
  obtain ⟨w, _, hmidway, _⟩ := handling_stops ground few run
  rcases hmidway.tables with ⟨hnone, hdb⟩ | ⟨hrows, _, hle, _⟩ | ⟨hrows, _, htotal, hfirst⟩
  · rcases hcomplete with hnil | hle
    · exact Or.inl ⟨hnil, hdb⟩
    · rcases hnone with hnil | hzero
      · exact Or.inl ⟨hnil, hdb⟩
      · omega
  · rcases hcomplete with hnil | hle'
    · exact absurd hnil hrows
    · omega
  · exact Or.inr ⟨hrows, htotal, hfirst⟩

theorem Completes.silent (h : Completes serde checks text redisConnection s t answers)
    (hrows : messageRows serde text = []) : answers = [] ∧ t = s := by
  obtain ⟨⟨inputs, r, run⟩, _⟩ := h
  have obeys := task_obeys serde (.message text redisConnection)
  rw [Writer.start, hrows] at obeys
  obtain ⟨r', hr⟩ := returned_of_silent obeys fun q hq => hq.1 rfl
  rw [hr] at run
  cases inputs with
  | nil =>
    cases run
    exact ⟨rfl, rfl⟩
  | cons env inputs =>
    obtain ⟨_, _, _, hstep, _⟩ := (Machine.run_cons_iff _).mp run
    cases hstep

end Runs

end RustExperiments.TradeFeed
