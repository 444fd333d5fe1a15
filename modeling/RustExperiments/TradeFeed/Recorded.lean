/- module: RustExperiments/TradeFeed/Recorded
   digest: The tables hold what the history has stored, and what is published was stored before. -/

import RustExperiments.Lib.History
import RustExperiments.TradeFeed.Atomicity
import RustExperiments.TradeFeed.Publication
import RustExperiments.TradeFeed.RangeReads

set_option autoImplicit false
set_option relaxedAutoImplicit false

namespace RustExperiments.TradeFeed

open RustExperiments.Lib

section Entries

def storedIn : FeedEvent → List (Trade × ℕ)
  | .performed _ q a => storedBatch ⟨q, a⟩
  | _ => []

/-- The trades that a history has stored, with their indices. -/
def storedEntries (es : List FeedEvent) : List (Trade × ℕ) := es.flatMap storedIn

@[simp] theorem storedEntries_append (xs ys : List FeedEvent) :
    storedEntries (xs ++ ys) = storedEntries xs ++ storedEntries ys := List.flatMap_append

theorem storedEntries_concat (es : List FeedEvent) (e : FeedEvent) :
    storedEntries (es ++ [e]) = storedEntries es ++ storedIn e := by
  rw [storedEntries_append, storedEntries, storedEntries, List.flatMap_singleton]

theorem lookup_storeTrades_iff (serde : SerdeJson) {db : TradeDb} {batch : List (Trade × ℕ)}
    (distinct : (batch.map Prod.snd).Nodup) {i : ℕ} {v : String} :
    (db.storeTrades serde batch).trades.lookup i = some v ↔
      (∃ trade, (trade, i) ∈ batch ∧ v = serde.tradeToVec trade) ∨
        i ∉ batch.map Prod.snd ∧ db.trades.lookup i = some v := by
  by_cases hi : i ∈ batch.map Prod.snd
  · obtain ⟨⟨trade, index⟩, hentry, rfl⟩ := List.mem_map.mp hi
    rw [trades_storeTrades_of_mem db distinct hentry]
    constructor
    · intro hv
      exact Or.inl ⟨trade, hentry, (Option.some.inj hv).symm⟩
    · rintro (⟨other, hother, rfl⟩ | ⟨habsent, _⟩)
      · rw [← trades_storeTrades_of_mem db distinct hentry,
          trades_storeTrades_of_mem db distinct hother]
      · exact absurd hi habsent
  · rw [trades_storeTrades_of_not_mem serde db batch hi]
    constructor
    · exact fun hv => Or.inr ⟨hi, hv⟩
    · rintro (⟨trade, hmem, _⟩ | ⟨_, hv⟩)
      · exact absurd (List.mem_map.mpr ⟨_, hmem, rfl⟩) hi
      · exact hv

end Entries

/-- The tables, the writers and the publications, by what the history has stored. -/
structure Recorded (serde : SerdeJson) (es : List FeedEvent) (db : TradeDb)
    (Γ : ℕ → Option Writer) : Prop where
  appending : Appending es db Γ
  table : ∀ i v, db.trades.lookup i = some v ↔
    ∃ trade, (trade, i) ∈ storedEntries es ∧ v = serde.tradeToVec trade
  waiting : ∀ c trades, Γ c = some (.publishing trades) → ∀ trade ∈ trades,
    ∃ i, (trade, i) ∈ storedEntries es
  sent : ∀ c channel payload r, .performed c (.publish channel payload) r ∈ es →
    channel = "trades" ∧ ∃ i trade, (trade, i) ∈ storedEntries es ∧
      payload = serde.tradeToString trade

namespace Recorded

variable {serde : SerdeJson} {checks : Bool} {es es' : List FeedEvent} {db db' : TradeDb}
  {Γ Γ' : ℕ → Option Writer}

theorem quiet (h : Recorded serde es db Γ) {e : FeedEvent} (appending : Appending (es ++ [e]) db' Γ')
    (unstored : storedIn e = []) (trades : db'.trades = db.trades)
    (waiting : ∀ c trades, Γ' c = some (.publishing trades) → ∀ trade ∈ trades,
      ∃ i, (trade, i) ∈ storedEntries es)
    (unsent : ∀ c channel payload r, e ≠ .performed c (.publish channel payload) r) :
    Recorded serde (es ++ [e]) db' Γ' := by
  have hentries : storedEntries (es ++ [e]) = storedEntries es := by
    rw [storedEntries_concat, unstored, List.append_nil]
  refine ⟨appending, ?_, ?_, ?_⟩
  · rw [hentries, trades]
    exact h.table
  · rw [hentries]
    exact waiting
  · intro c channel payload r hmem
    rw [hentries]
    rcases List.mem_append.mp hmem with hold | hnew
    · exact h.sent c channel payload r hold
    · exact absurd (List.mem_singleton.mp hnew).symm (unsent c channel payload r)

theorem waiting_update (h : Recorded serde es db Γ) {c : ℕ} {w : Writer}
    (self : ∀ trades, w = .publishing trades → ∀ trade ∈ trades,
      ∃ i, (trade, i) ∈ storedEntries es) (d : ℕ) (trades : List Trade)
    (hd : Function.update Γ c (some w) d = some (.publishing trades)) :
    ∀ trade ∈ trades, ∃ i, (trade, i) ∈ storedEntries es := by
  rcases Clients.update_cases hd with ⟨_, hw⟩ | ⟨_, hold⟩
  · exact self trades (Option.some.inj hw)
  · exact h.waiting d trades hold

theorem stored (h : Recorded serde es db Γ) {c : ℕ} {batch : List (Trade × ℕ)}
    (ghost : Γ c = some (.loop [] batch)) :
    Recorded serde (es ++ [.performed c (.run (.storeTradeBatch batch)) (.ok batch.length)])
      (db.storeTrades serde batch)
      (Function.update Γ c (some (.publishing (batch.map Prod.fst)))) := by
  have hfits : Reserved db batch := h.appending.fits c _ ghost
  have hdistinct : (batch.map Prod.snd).Nodup := h.appending.owned_nodup c _ ghost
  have hentries : storedEntries (es ++
      [.performed c (.run (.storeTradeBatch batch)) (.ok batch.length)]) =
        storedEntries es ++ batch := storedEntries_concat es _
  refine ⟨h.appending.stored ghost, ?_, ?_, ?_⟩
  · intro i v
    rw [lookup_storeTrades_iff serde hdistinct, h.table, hentries]
    constructor
    · rintro (⟨trade, hmem, hv⟩ | ⟨_, trade, hmem, hv⟩)
      · exact ⟨trade, List.mem_append_right _ hmem, hv⟩
      · exact ⟨trade, List.mem_append_left _ hmem, hv⟩
    · rintro ⟨trade, hmem, hv⟩
      rcases List.mem_append.mp hmem with hold | hnew
      · refine Or.inr ⟨fun hi => ?_, trade, hold, hv⟩
        obtain ⟨entry, hentry, rfl⟩ := List.mem_map.mp hi
        have htable := (h.table entry.2 _).mpr ⟨trade, hold, rfl⟩
        rw [(hfits entry hentry).2] at htable
        cases htable
      · exact Or.inl ⟨trade, hnew, hv⟩
  · intro d trades hd trade htrade
    rw [hentries]
    rcases Clients.update_cases hd with ⟨_, hself⟩ | ⟨_, hold⟩
    · cases hself
      obtain ⟨entry, hentry, rfl⟩ := List.mem_map.mp htrade
      exact ⟨entry.2, List.mem_append_right _ hentry⟩
    · obtain ⟨i, hi⟩ := h.waiting d trades hold trade htrade
      exact ⟨i, List.mem_append_left _ hi⟩
  · intro d channel payload r hmem
    rcases List.mem_append.mp hmem with hold | hnew
    · obtain ⟨hchannel, i, trade, hi, hpayload⟩ := h.sent d channel payload r hold
      exact ⟨hchannel, i, trade, hentries ▸ List.mem_append_left _ hi, hpayload⟩
    · cases List.mem_singleton.mp hnew

theorem published (h : Recorded serde es db Γ) {c : ℕ} {trade : Trade} {trades : List Trade}
    (ghost : Γ c = some (.publishing (trade :: trades))) {w : Writer}
    (next : w = .publishing trades ∨ w = .halted (.publishing (trade :: trades)))
    (r : Except String Unit)
    (appending : Appending (es ++
      [.performed c (.publish "trades" (serde.tradeToString trade)) r]) db
      (Function.update Γ c (some w))) :
    Recorded serde (es ++ [.performed c (.publish "trades" (serde.tradeToString trade)) r]) db
      (Function.update Γ c (some w)) := by
  have hentries : storedEntries (es ++
      [.performed c (.publish "trades" (serde.tradeToString trade)) r]) = storedEntries es :=
    (storedEntries_concat es _).trans (List.append_nil _)
  have hready := h.waiting c _ ghost
  refine ⟨appending, by rw [hentries]; exact h.table, ?_, ?_⟩
  · rw [hentries]
    refine h.waiting_update fun trades' hw => ?_
    rcases next with rfl | rfl
    · cases hw
      exact fun other hother => hready other (List.mem_cons_of_mem _ hother)
    · cases hw
  · intro d channel payload r' hmem
    rw [hentries]
    rcases List.mem_append.mp hmem with hold | hnew
    · exact h.sent d channel payload r' hold
    · cases List.mem_singleton.mp hnew
      obtain ⟨i, hi⟩ := hready trade List.mem_cons_self
      exact ⟨rfl, i, trade, hi, rfl⟩

theorem perform (h : Recorded serde es db Γ) {c : ℕ} {w : Writer} (ghost : Γ c = some w) {q : Await}
    {a : Answer q} (allowed : w.allows serde q) (effect : Effect serde checks db q a db')
    (few : checks = false → (issuedIndices es).length < 2 ^ 64 - 1) :
    Recorded serde (es ++ [.performed c q a]) db' (Function.update Γ c (some (w.next q a))) := by
  have happending := h.appending.perform ghost allowed effect few
  by_cases hreader : w = .reader
  · subst hreader
    have hwaiting := h.waiting_update (c := c) (w := Writer.next .reader q a) fun _ hw => by cases hw
    cases effect with
    | failed q e =>
      exact h.quiet happending (by cases q <;> rfl) rfl hwaiting fun _ _ _ _ he => by cases he
    | total => exact h.quiet happending rfl rfl hwaiting fun _ _ _ _ he => by cases he
    | range first count trades =>
      exact h.quiet happending rfl rfl hwaiting fun _ _ _ _ he => by cases he
    | _ => exact absurd allowed (by simp [Writer.allows, Await.IsRead])
  have hmoves := Writer.moves hreader allowed effect
  generalize w.next q a = w' at hmoves happending ⊢
  cases hmoves with
  | failed w q e =>
    refine h.quiet happending (by cases q <;> rfl) rfl (h.waiting_update fun _ hw => ?_)
      fun _ _ _ _ he => by cases he
    cases hw
  | stored batch nonempty => exact h.stored ghost
  | published trade trades => exact h.published ghost (Or.inl rfl) _ happending
  | unpublished trade trades e => exact h.published ghost (Or.inr rfl) _ happending
  | _ =>
    refine h.quiet happending rfl rfl (h.waiting_update fun _ hw => ?_)
      fun _ _ _ _ he => by cases he
    cases hw

end Recorded

section Runs

variable (serde : SerdeJson) (checks : Bool)

variable {serde checks}

end Runs

end RustExperiments.TradeFeed
