/- module: RustExperiments/TradeFeed/Acknowledged
   digest: What clients of the feed are told, by what was stored before they came. -/

import RustExperiments.TradeFeed.Recorded

set_option autoImplicit false
set_option relaxedAutoImplicit false

namespace RustExperiments.TradeFeed

open RustExperiments.Lib RustExperiments.Lib.Proc

section Honest

def noting : Protocol Await Answer Bool where
  allows _ _ := True
  next failed q a := failed || answeredError ⟨q, a⟩

/-- The code ends without an error only if no request has failed. -/
def Honest {α : Type} (m : Async α) : Prop :=
  m.run.Obeys noting (fun failed r => ∀ a, r = .ok a → failed = false) false

variable {α β : Type} {serde : SerdeJson}

theorem Honest.bind {m : Async α} {f : α → Async β} (h : Honest m) (rest : ∀ a, Honest (f a)) :
    Honest (m >>= f) := by
  refine Obeys.except_bind h (fun failed a hok => ?_) fun _ _ _ _ heq => by cases heq
  rw [hok a rfl]
  exact rest a

end Honest

section Rows

/-- The batch has been committed, unless there is nothing in it. -/
def Commits (answers : List (Σ q, Answer q)) (batch : List (Trade × ℕ)) : Prop :=
  batch = [] ∨ ∃ n, (⟨.run (.storeTradeBatch batch), .ok n⟩ : Σ q, Answer q) ∈ answers

theorem Commits.later {answers : List (Σ q, Answer q)} {batch : List (Trade × ℕ)}
    (h : Commits answers batch) (a : Σ q, Answer q) : Commits (a :: answers) batch :=
  h.imp_right fun ⟨n, hn⟩ => ⟨n, List.mem_cons_of_mem a hn⟩

variable {serde : SerdeJson}

end Rows

section Told

variable {serde : SerdeJson} {checks : Bool} {inputs : List (ClientInput Task Env)}
  {s : Clients.State Await Answer Outcome FeedStore} {es : List FeedEvent} {db : TradeDb}
  {Γ : ℕ → Option Writer}

theorem Recorded.trade?_eq_some_iff (h : Recorded serde es db Γ) {i : ℕ} {trade : Trade} :
    db.trade? serde i = some trade ↔ (trade, i) ∈ storedEntries es := by
  have hvalue : ∀ other, (other, i) ∈ storedEntries es → db.trade? serde i = some other := by
    intro other hother
    rw [TradeDb.trade?, (h.table i _).mpr ⟨other, hother, rfl⟩, Option.bind_some,
      serde.tradeFromSlice_toVec]
    rfl
  constructor
  · intro htrade
    obtain ⟨bytes, hbytes, _⟩ := Option.bind_eq_some_iff.mp htrade
    obtain ⟨other, hother, _⟩ := (h.table i bytes).mp hbytes
    have heq := hvalue other hother
    rw [htrade] at heq
    rw [Option.some.inj heq]
    exact hother
  · exact hvalue trade

theorem Recorded.unique (h : Recorded serde es db Γ) {i : ℕ} {trade trade' : Trade}
    (mem : (trade, i) ∈ storedEntries es) (mem' : (trade', i) ∈ storedEntries es) :
    trade = trade' := by
  have htrade := h.trade?_eq_some_iff.mpr mem
  rw [h.trade?_eq_some_iff.mpr mem'] at htrade
  exact (Option.some.inj htrade).symm

end Told

section Reads

open Session

/-- A page of a range: at most what is stored in the end, and at least what was stored before, up to
the first gap. -/
structure Page (before all : List (Trade × ℕ)) (first count : ℕ) (page : List Trade) : Prop where
  short : page.length ≤ count
  stored : ∀ k trade, page[k]? = some trade → (trade, first + k) ∈ all
  complete : ∀ k < count, (∀ m ≤ k, ∃ trade, (trade, first + m) ∈ before) → k < page.length

variable {serde : SerdeJson} {checks : Bool} {inputs₁ inputs₂ : List (ClientInput Task Env)}
  {mid s : Clients.State Await Answer Outcome FeedStore} {es₁ es₂ : List FeedEvent}

/-- What clients are told in the second part of a history, by what was stored in the first. -/
structure Truthful (serde : SerdeJson) (es₁ es₂ : List FeedEvent) : Prop where
  /-- An index is stored once and for all. -/
  unique : ∀ index trade trade', (trade, index) ∈ storedEntries (es₁ ++ es₂) →
    (trade', index) ∈ storedEntries (es₁ ++ es₂) → trade = trade'
  /-- A message that was handled is stored row by row. -/
  handled : ∀ i text redisConnection, .spawned i (.message text redisConnection) ∈ es₁ →
    .returned i (.handled (.ok ())) ∈ es₁ → ∃ indices : List ℕ, indices.Pairwise (· < ·) ∧
      List.Forall₂ (fun row index => (row.trade index, index) ∈ storedEntries es₁)
        (messageRows serde text) indices
  /-- What was published is stored. -/
  published : ∀ i channel payload r, .performed i (.publish channel payload) r ∈ es₁ →
    channel = "trades" ∧ ∃ index trade, (trade, index) ∈ storedEntries es₁ ∧
      payload = serde.tradeToString trade
  page : ∀ i startIndex limit r, .spawned i (.trades startIndex limit) ∈ es₂ →
    .returned i r ∈ es₂ → startIndex.getD 1 + min (limit.getD 100) maxBatchSize < u64Size →
    (∃ e : String, r = .response 500 s!"Database error: {e}") ∨
      ∃ page, r = .response 200 (serde.tradesToString page) ∧
        Page (storedEntries es₁) (storedEntries (es₁ ++ es₂)) (startIndex.getD 1)
          (min (limit.getD 100) maxBatchSize) page
  count : ∀ i r, .spawned i .tradesCount ∈ es₂ → .returned i r ∈ es₂ →
    (∃ e : String, r = .response 500 s!"Error: {e}") ∨ ∃ count : ℕ, r = .response 200 (toString count) ∧
      (∀ entry ∈ storedEntries es₁, entry.2 ≤ count) ∧
      count ≤ (issuedIndices (es₁ ++ es₂)).length

end Reads

end RustExperiments.TradeFeed
