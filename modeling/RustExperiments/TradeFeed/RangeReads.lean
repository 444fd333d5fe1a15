/- module: RustExperiments/TradeFeed/RangeReads
   digest: A read of a range is complete exactly where no stored trade lies behind a gap. -/

import RustExperiments.Lib.Scan
import RustExperiments.TradeFeed.Handling

set_option autoImplicit false
set_option relaxedAutoImplicit false

namespace RustExperiments.TradeFeed

open RustExperiments.Lib RustExperiments.Lib.Session

section Readable

variable (serde : SerdeJson)

/-- Everything under `TRADES` can be decoded. -/
def Readable (db : TradeDb) : Prop :=
  ∀ i bytes, db.trades.lookup i = some bytes → ∃ trade, serde.tradeFromSlice bytes = .ok trade

/-- The trades stored under `count` indices from `first` on, in the order of their indices. -/
def TradeDb.tradesIn (db : TradeDb) (first count : ℕ) : List Trade :=
  Scan.all (db.trade? serde) first count

def TradeDb.storedTrades (db : TradeDb) : List Trade :=
  db.trades.keys.sort.filterMap (db.trade? serde)

variable {serde} {checks : Bool} {db : TradeDb}

theorem tradesIn_zero {bound : ℕ} (below : ∀ i ∈ db.trades, i < bound) :
    db.tradesIn serde 0 bound = db.storedTrades serde := by
  refine Scan.all_zero_eq_sort (fun i hi => below i (Finmap.mem_keys.mp hi)) fun i hi => ?_
  rw [Finmap.mem_keys, Table.mem_iff_isSome]
  cases hbytes : db.trades.lookup i with
  | none =>
    rw [TradeDb.trade?, hbytes] at hi
    cases hi
  | some bytes => rfl

theorem Readable.trade?_isSome (h : Readable serde db) (i : ℕ) :
    (db.trade? serde i).isSome = (db.trades.lookup i).isSome := by
  rw [TradeDb.trade?]
  cases hbytes : db.trades.lookup i with
  | none => rfl
  | some bytes =>
    obtain ⟨trade, htrade⟩ := h i bytes hbytes
    rw [Option.bind_some, htrade]
    rfl

theorem Readable.trade?_eq_none_iff (h : Readable serde db) (i : ℕ) :
    db.trade? serde i = none ↔ i ∉ db.trades := by
  rw [Table.mem_iff_isSome, ← h.trade?_isSome, Bool.not_eq_true, Option.isSome_eq_false_iff,
    Option.isNone_iff_eq_none]

theorem Readable.gapless_iff (h : Readable serde db) (first count : ℕ) :
    Scan.Gapless (db.trade? serde) first count ↔
      Scan.Gapless db.trades.lookup first count := by
  simp only [Scan.Gapless, h.trade?_isSome]

theorem Readable.insert (h : Readable serde db) (trade : Trade) (index : ℕ) :
    Readable serde { db with
      trades := db.trades.insert index (serde.tradeToVec trade)
      tradeIds := db.tradeIds.insert trade.id index } := by
  intro i bytes hi
  rw [Table.lookup_insert_ite] at hi
  split_ifs at hi with hindex
  · cases hi
    exact ⟨trade, serde.tradeFromSlice_toVec trade⟩
  · exact h i bytes hi

theorem Readable.storeTrades (h : Readable serde db) (batch : List (Trade × ℕ)) :
    Readable serde (db.storeTrades serde batch) := by
  induction batch generalizing db with
  | nil => exact h
  | cons entry batch ih =>
    rw [storeTrades_cons]
    exact ih (h.insert entry.1 entry.2)

theorem Readable.effect (h : Readable serde db) {q : Await} {a : Answer q} {db' : TradeDb}
    (effect : Effect serde checks db q a db') : Readable serde db' := by
  cases effect with
  | stored batch => exact h.storeTrades batch
  | _ => exact h

theorem Readable.reboot {s : FeedStore} (h : Readable serde s.db) (env : Env) :
    Readable serde (reboot env s).db := by
  rcases reboot_cases env s with hdb | ⟨_, hdb⟩
  · rwa [hdb]
  · rw [hdb]
    exact h

theorem readable_first : Readable serde FeedStore.first.db := by
  intro i bytes hi
  rw [first_db, trades_setTotal, Finmap.lookup_empty] at hi
  cases hi

/-- In every reachable store all trades can be decoded. -/
theorem readable_reached {inputs : List (ClientInput Task Env)}
    {s : Clients.State Await Answer Outcome FeedStore} {es : List FeedEvent}
    (run : (feed serde checks).machine.run (.initial .first) inputs = some (s, es)) :
    Readable serde s.store.db :=
  Clients.store_invariant (I := fun s => Readable serde s.db)
    (fun q env s h => h.effect (perform_effect serde checks q env s)) (fun env _ h => h.reboot env)
    readable_first run

end Readable

section Reads

variable (serde : SerdeJson) (checks : Bool)

/-- A read of a range alone with the worker is answered with the text of these trades. -/
def Serves (s : FeedStore) (env : Env) (startIndex limit : Option ℕ) (trades : List Trade) :
    Prop :=
  (handling serde checks).run ((Task.trades startIndex limit).start serde, s) [env] =
    some ((.ret (.response 200 (serde.tradesToString trades)), s),
      [⟨.run (.getTradesByRange (startIndex.getD 1) (min (limit.getD 100) maxBatchSize)),
        .ok trades⟩])

variable {serde checks} {db : TradeDb}

theorem collectRange_makes {copy : TradeDb} (readable : Readable serde copy) (remaining i : ℕ)
    (result : List Trade) :
    ∃ n, Makes n (collectRange serde copy remaining i result) db
      (result ++ Scan.upToGap (copy.trade? serde) i remaining) db := by
  induction remaining generalizing i result with
  | zero =>
    rw [Scan.upToGap, List.append_nil]
    exact ⟨0, makes_pure result db⟩
  | succ remaining ih =>
    cases hbytes : copy.trades.lookup i with
    | none =>
      have htrade : copy.trade? serde i = none := by rw [TradeDb.trade?, hbytes, Option.bind_none]
      rw [Scan.upToGap, htrade, List.append_nil]
      refine ⟨1 + 0, makes_bind (makes_op db) ?_⟩
      simp only [hbytes]
      exact makes_pure result db
    | some bytes =>
      obtain ⟨trade, hdecoded⟩ := readable i bytes hbytes
      have htrade : copy.trade? serde i = some trade := by
        rw [TradeDb.trade?, hbytes, Option.bind_some, hdecoded]
        rfl
      obtain ⟨n, hrest⟩ := ih (i + 1) (result ++ [trade])
      rw [List.append_assoc, List.singleton_append] at hrest
      rw [Scan.upToGap, htrade]
      refine ⟨1 + n, makes_bind (makes_op db) ?_⟩
      simp only [hbytes, hdecoded]
      exact hrest

theorem getTradesByRange_makes (readable : Readable serde db) {startIndex limit : ℕ}
    (fits : startIndex + limit < u64Size) :
    ∃ n, Makes n ((DbRequest.getTradesByRange startIndex limit).handle serde checks) db
      (Scan.upToGap (db.trade? serde) startIndex limit) db := by
  obtain ⟨n, hloop⟩ := collectRange_makes readable limit startIndex []
  have hadd : u64Add checks startIndex limit = some (startIndex + limit) := u64Fit_of_lt fits
  rw [List.nil_append] at hloop
  refine ⟨1 + (1 + (0 + n)), makes_bind (makes_begin db) (makes_bind (makes_op db) ?_)⟩
  rw [hadd]
  refine makes_bind (makes_checked (startIndex + limit) db) ?_
  rwa [Nat.add_sub_cancel_left]

theorem range_answered {s : FeedStore} (readable : Readable serde s.db) {env : Env}
    {first count : ℕ} (fits : first + count < u64Size) {trades : List Trade}
    (answered : (perform serde checks (.run (.getTradesByRange first count)) env s).1 = .ok trades) :
    trades = Scan.upToGap (s.db.trade? serde) first count := by
  obtain ⟨n, hmakes⟩ := @getTradesByRange_makes serde checks s.db readable first count fits
  exact Service.eq_of_serve_ok hmakes answered

theorem serves_iff {s : FeedStore} {env : Env} {startIndex limit : Option ℕ}
    {trades : List Trade} :
    Serves serde checks s env startIndex limit trades ↔
      perform serde checks (.run (.getTradesByRange (startIndex.getD 1)
        (min (limit.getD 100) maxBatchSize))) env s = (.ok trades, s) := by
  rcases hperform : perform serde checks (.run (.getTradesByRange (startIndex.getD 1)
    (min (limit.getD 100) maxBatchSize))) env s with ⟨e | answer, t⟩
  · simp [Serves, handling, Proc.machine, Machine.run, Task.start, getTrades, hperform]
  · simp only [Serves, handling, Proc.machine, Machine.run, Task.start, getTrades, hperform]
    constructor
    · intro h
      obtain ⟨hstate, hanswers⟩ := Prod.mk.inj (Option.some.inj h)
      cases hanswers
      rw [(Prod.mk.inj hstate).2]
    · intro h
      obtain ⟨hanswer, hstore⟩ := Prod.mk.inj h
      rw [hstore, Except.ok.inj hanswer]
      rfl

theorem serves_cases {s : FeedStore} (readable : Readable serde s.db) (env : Env)
    {startIndex limit : Option ℕ}
    (fits : startIndex.getD 1 + min (limit.getD 100) maxBatchSize < u64Size) :
    (s.alive = true → Quiet env.faults → Serves serde checks s env startIndex limit
      (Scan.upToGap (s.db.trade? serde) (startIndex.getD 1) (min (limit.getD 100) maxBatchSize))) ∧
    ∀ trades, Serves serde checks s env startIndex limit trades →
      trades = Scan.upToGap (s.db.trade? serde) (startIndex.getD 1)
        (min (limit.getD 100) maxBatchSize) := by
  obtain ⟨n, hmakes⟩ := getTradesByRange_makes readable fits
  constructor
  · intro alive quiet
    rw [serves_iff, perform, (Service.serve_makes alive hmakes).1 (quiet.take n), ← alive]
  · intro trades hserves
    rw [serves_iff] at hserves
    exact range_answered readable fits (congrArg Prod.fst hserves)

theorem served_complete_iff {s : FeedStore} (readable : Readable serde s.db) {env : Env}
    {startIndex limit : Option ℕ} {trades : List Trade}
    (fits : startIndex.getD 1 + min (limit.getD 100) maxBatchSize < u64Size)
    (served : Serves serde checks s env startIndex limit trades) :
    trades = s.db.tradesIn serde (startIndex.getD 1) (min (limit.getD 100) maxBatchSize) ↔
      Scan.Gapless s.db.trades.lookup (startIndex.getD 1) (min (limit.getD 100) maxBatchSize) := by
  rw [(serves_cases readable env fits).2 trades served, TradeDb.tradesIn, Scan.upToGap_eq_all_iff,
    readable.gapless_iff]

end Reads

/-- In every reachable store, whatever a stopped message has left there: a range that ends below
2^64 is served by every live worker no operation of which fails; what is served is exactly the
stored trades of the range exactly where no index without a trade lies below a stored one; and
pages that reach beyond the last trade are together exactly the stored trades if and only if
nothing is stored below the first page and every page is so. -/
theorem range_read_complete_iff {serde : SerdeJson} {checks : Bool}
    {inputs : List (ClientInput Task Env)} {s : Clients.State Await Answer Outcome FeedStore}
    {es : List FeedEvent}
    (run : (feed serde checks).machine.run (.initial .first) inputs = some (s, es)) :
    (∀ (startIndex limit : Option ℕ) (env : Env),
      startIndex.getD 1 + min (limit.getD 100) maxBatchSize < u64Size →
      (s.store.alive = true → Quiet env.faults →
        ∃ trades, Serves serde checks s.store env startIndex limit trades) ∧
      ∀ trades, Serves serde checks s.store env startIndex limit trades →
        (trades = s.store.db.tradesIn serde (startIndex.getD 1)
          (min (limit.getD 100) maxBatchSize) ↔
        Scan.Gapless s.store.db.trades.lookup (startIndex.getD 1)
          (min (limit.getD 100) maxBatchSize))) ∧
    ∀ (first size pages : ℕ) (answer : ℕ → List Trade), size ≤ maxBatchSize →
      first + pages * size < u64Size → (∀ i ∈ s.store.db.trades, i < first + pages * size) →
      (∀ k < pages, ∃ env,
        Serves serde checks s.store env (some (first + k * size)) (some size) (answer k)) →
      ((List.range pages).flatMap answer = s.store.db.storedTrades serde ↔
        (∀ i < first, i ∉ s.store.db.trades) ∧
          ∀ k < pages, Scan.Gapless s.store.db.trades.lookup (first + k * size) size) := by
  have readable := readable_reached run
  constructor
  · intro startIndex limit env fits
    exact ⟨fun alive quiet => ⟨_, (serves_cases readable env fits).1 alive quiet⟩,
      fun trades served => served_complete_iff readable fits served⟩
  · intro first size pages answer hsize hfits below served
    have hpage : ∀ k ∈ List.range pages,
        answer k = Scan.upToGap (s.store.db.trade? serde) (first + k * size) size := by
      intro k hk
      rw [List.mem_range] at hk
      obtain ⟨env, hserved⟩ := served k hk
      have hend : first + k * size + size ≤ first + pages * size := by
        have hmul := Nat.mul_le_mul_right size hk
        rw [Nat.succ_mul] at hmul
        omega
      have heq := (serves_cases readable env (by
        rw [Option.getD_some, Option.getD_some, Nat.min_eq_left hsize]
        omega)).2 _ hserved
      rwa [Option.getD_some, Option.getD_some, Nat.min_eq_left hsize] at heq
    rw [List.flatMap_congr hpage, ← tradesIn_zero below, TradeDb.tradesIn]
    change Scan.readPages _ first size pages = _ ↔ _
    rw [Scan.readPages_eq_all_zero_iff]
    simp only [readable.gapless_iff, readable.trade?_eq_none_iff]

def messageStored : List (ClientInput Task Env) :=
  [.spawn (.message tradeText false), .perform 0 .fine, .deliver 0, .perform 0 .fine, .deliver 0,
    .perform 0 .fine, .deliver 0, .perform 0 .fine, .deliver 0]

theorem default_page_complete : ∃ s es,
    (feed tradeJson true).machine.run (.initial .first) messageStored = some (s, es) ∧
    Serves tradeJson true s.store .fine none none (s.store.db.tradesIn tradeJson 1 100) := by
  have hrun : ((feed tradeJson true).machine.run (.initial .first) messageStored).map
      (fun p => (p.1.store.db.trades.keys, p.1.store.alive)) = some ({1}, true) := by
    decide +kernel
  obtain ⟨⟨s, es⟩, run, hvalues⟩ := Option.map_eq_some_iff.mp hrun
  obtain ⟨hkeys, halive⟩ := Prod.mk.inj hvalues
  have hgapless : Scan.Gapless s.store.db.trades.lookup 1 100 := by
    intro i j hi hij _ hsome
    rw [← Table.mem_iff_isSome, ← Finmap.mem_keys, hkeys, Finset.mem_singleton] at hsome
    omega
  obtain ⟨hserves, hcomplete⟩ := (range_read_complete_iff run).1 none none .fine (by decide)
  obtain ⟨trades, hserved⟩ := hserves halive fun _ h => by cases h
  have htrades := (hcomplete trades hserved).mpr hgapless
  exact ⟨s, es, run, htrades ▸ hserved⟩

def messageBehindGap : List (ClientInput Task Env) :=
  [.spawn (.message tradeText false), .perform 0 .fine, .restart .fine,
    .spawn (.message tradeText false), .perform 1 .fine, .deliver 1, .perform 1 .fine, .deliver 1,
    .perform 1 .fine, .deliver 1, .perform 1 .fine, .deliver 1]

/-- The trade of the whole message is stored under 2; a read from 1 on does not show it, and
neither does one from 0 on. -/
theorem trade_behind_gap_not_read : ∃ s es,
    (feed tradeJson true).machine.run (.initial .first) messageBehindGap = some (s, es) ∧
    2 ∈ s.store.db.trades ∧
    (Serves tradeJson true s.store .fine (some 1) (some 100) [] ∧
      s.store.db.tradesIn tradeJson 1 100 ≠ []) ∧
    Serves tradeJson true s.store .fine (some 0) (some 100) [] ∧
      s.store.db.tradesIn tradeJson 0 100 ≠ [] := by
  have hrun : ((feed tradeJson true).machine.run (.initial .first) messageBehindGap).map
      (fun p => (p.1.store.db.trades.keys, p.1.store.alive)) = some ({2}, true) := by
    decide +kernel
  obtain ⟨⟨s, es⟩, run, hvalues⟩ := Option.map_eq_some_iff.mp hrun
  obtain ⟨hkeys, halive⟩ := Prod.mk.inj hvalues
  have hmem : ∀ i, i ∈ s.store.db.trades ↔ i = 2 := by
    intro i
    rw [← Finmap.mem_keys, hkeys, Finset.mem_singleton]
  have readable := readable_reached run
  have hread : ∀ i, s.store.db.trade? tradeJson i = none ↔ i ≠ 2 := by
    intro i
    rw [readable.trade?_eq_none_iff, hmem]
  have hempty : ∀ first < 2, Serves tradeJson true s.store .fine (some first) (some 100) [] := by
    intro first hfirst
    have hfits : (some first).getD 1 + min ((some 100).getD 100) maxBatchSize < u64Size := by
      change first + 100 < 2 ^ 64
      omega
    have hserves : Serves tradeJson true s.store .fine (some first) (some 100)
        (Scan.upToGap (s.store.db.trade? tradeJson) first 100) :=
      (serves_cases readable .fine hfits).1 halive fun _ h => by cases h
    rwa [Scan.upToGap_none ((hread first).mpr (by omega))] at hserves
  have hstored : ∀ first ≤ 2, s.store.db.tradesIn tradeJson first 100 ≠ [] := by
    intro first hfirst hnil
    rw [TradeDb.tradesIn, Scan.all_eq_nil_iff] at hnil
    exact (hread 2).mp (hnil 2 hfirst (by omega)) rfl
  exact ⟨s, es, run, (hmem 2).mpr rfl, ⟨hempty 1 (by omega), hstored 1 (by omega)⟩,
    hempty 0 (by omega), hstored 0 (by omega)⟩

end RustExperiments.TradeFeed
