/- module: RustExperiments/TradeFeed/Atomicity
   digest: Which handlings are all-or-nothing, and the tables of runs in which all of them are. -/

import Mathlib.Order.Interval.Finset.Nat
import RustExperiments.TradeFeed.Handling

set_option autoImplicit false
set_option relaxedAutoImplicit false

namespace RustExperiments.TradeFeed

open RustExperiments.Lib

section Counts

def taskRows (serde : SerdeJson) : Task → List Row
  | .message text _ => messageRows serde text
  | .tradesCount => []
  | .trades _ _ => []

def executedFor (c : ℕ) : FeedEvent → Bool
  | .performed d (.run _) (.ok _) => decide (d = c)
  | _ => false

def issuedFor (c : ℕ) : FeedEvent → Option ℕ
  | .performed d (.run .getNextTradeCounter) (.ok index) => if d = c then some index else none
  | _ => none

/-- How many requests of the client were executed without an error. -/
def requestsOf (c : ℕ) (es : List FeedEvent) : ℕ := es.countP (executedFor c)

def issuedTo (c : ℕ) (es : List FeedEvent) : List ℕ := es.filterMap (issuedFor c)

variable {c : ℕ} {es : List FeedEvent} {e : FeedEvent}

theorem requestsOf_concat (c : ℕ) (es : List FeedEvent) (e : FeedEvent) :
    requestsOf c (es ++ [e]) = requestsOf c es + (executedFor c e).toNat := by
  rw [requestsOf, List.countP_append, ← requestsOf]
  cases h : executedFor c e <;> simp [h]

theorem issuedTo_concat (c : ℕ) (es : List FeedEvent) (e : FeedEvent) :
    issuedTo c (es ++ [e]) = issuedTo c es ++ (issuedFor c e).toList := by
  rw [issuedTo, List.filterMap_append, ← issuedTo]
  cases h : issuedFor c e <;> simp [h]

theorem requestsOf_other {d : ℕ} (h : d ≠ c) (q : Await) (a : Answer q) :
    requestsOf c (es ++ [.performed d q a]) = requestsOf c es := by
  have hexecuted : executedFor c (.performed d q a) = false := by
    rcases q with q | _
    · cases a with
      | ok v => exact decide_eq_false h
      | error e => rfl
    · rfl
  rw [requestsOf_concat, hexecuted]
  rfl

theorem issuedTo_other {d : ℕ} (h : d ≠ c) (q : Await) (a : Answer q) :
    issuedTo c (es ++ [.performed d q a]) = issuedTo c es := by
  have hissued : issuedFor c (.performed d q a) = none := by
    rcases q with q | _
    · cases q with
      | getNextTradeCounter =>
        cases a with
        | ok v => exact if_neg h
        | error e => rfl
      | _ => rfl
    · rfl
  rw [issuedTo_concat, hissued]
  exact List.append_nil _

theorem requestsOf_ok (q : DbRequest) (v : q.Response) :
    requestsOf c (es ++ [.performed c (.run q) (.ok v)]) = requestsOf c es + 1 := by
  rw [requestsOf_concat, executedFor, decide_eq_true rfl]
  rfl

theorem requestsOf_same (h : executedFor c e = false) :
    requestsOf c (es ++ [e]) = requestsOf c es := by
  rw [requestsOf_concat, h]
  rfl

theorem issuedTo_same (h : issuedFor c e = none) : issuedTo c (es ++ [e]) = issuedTo c es := by
  rw [issuedTo_concat, h]
  exact List.append_nil _

theorem issuedTo_counter (index : ℕ) :
    issuedTo c (es ++ [.performed c (.run .getNextTradeCounter) (.ok index)]) =
      issuedTo c es ++ [index] := by
  rw [issuedTo_concat, issuedFor, if_pos rfl]
  rfl

theorem issuedTo_eq_nil (h : ∀ q a, .performed c q a ∉ es) : issuedTo c es = [] := by
  refine List.filterMap_eq_nil_iff.mpr fun e he => ?_
  rcases e with _ | ⟨d, q, a⟩ | _
  · rfl
  · by_cases hd : d = c
    · subst hd
      exact absurd he (h q a)
    · rcases q with q | _
      · cases q with
        | getNextTradeCounter =>
          cases a with
          | ok v => exact if_neg hd
          | error e => rfl
        | _ => rfl
      · rfl
  · rfl

theorem requestsOf_eq_zero (h : ∀ q a, .performed c q a ∉ es) : requestsOf c es = 0 := by
  refine List.countP_eq_zero.mpr fun e he => ?_
  rcases e with _ | ⟨d, q, a⟩ | _
  · exact nofun
  · by_cases hd : d = c
    · subst hd
      exact absurd he (h q a)
    · rcases q with q | _
      · cases a with
        | ok v => simpa [executedFor] using hd
        | error e => exact nofun
      · exact nofun
  · exact nofun

theorem mem_issuedIndices_iff {i : ℕ} : i ∈ issuedIndices es ↔ ∃ c, i ∈ issuedTo c es := by
  have hiff : ∀ e, issuedIndex e = some i ↔ ∃ c, issuedFor c e = some i := by
    intro e
    rcases e with _ | ⟨d, q, a⟩ | _
    · simp [issuedIndex, issuedFor]
    · rcases q with q | _
      · cases q with
        | getNextTradeCounter => cases a <;> simp [issuedIndex, issuedFor]
        | _ => simp [issuedIndex, issuedFor]
      · simp [issuedIndex, issuedFor]
    · simp [issuedIndex, issuedFor]
  simp only [issuedIndices, issuedTo, List.mem_filterMap, hiff]
  exact ⟨fun ⟨e, he, c, hc⟩ => ⟨c, e, he, hc⟩, fun ⟨c, e, he, hc⟩ => ⟨e, he, c, hc⟩⟩

end Counts

section Attribution

variable (serde : SerdeJson)

/-- A trade is stored under the index and its identifier leads to it. -/
def StoredAt (db : TradeDb) (i : ℕ) : Prop :=
  ∃ trade, db.trades.lookup i = some (serde.tradeToVec trade) ∧
    db.tradeIds.lookup trade.id = some i

def Progress (c : ℕ) (rows : List Row) (es : List FeedEvent) (db : TradeDb) : Writer → Prop
  | .loop todo batch => batch.length + todo.length = rows.length ∧
    requestsOf c es = 3 * batch.length ∧ issuedTo c es = batch.map Prod.snd
  | .counted _ index todo batch => batch.length + 1 + todo.length = rows.length ∧
    requestsOf c es = 3 * batch.length + 1 ∧ issuedTo c es = batch.map Prod.snd ++ [index]
  | .checked _ index todo batch => batch.length + 1 + todo.length = rows.length ∧
    requestsOf c es = 3 * batch.length + 2 ∧ issuedTo c es = batch.map Prod.snd ++ [index]
  | .publishing _ => ∀ i ∈ issuedTo c es, StoredAt serde db i
  | .halted w => Progress c rows es db w
  | .reader => issuedTo c es = []

/-- Every issued index is that of a stored trade, or its client stopped half way: it had a first
request and not the last one. -/
structure Attributed (es : List FeedEvent) (db : TradeDb) (Γ : ℕ → Option Writer) : Prop where
  live : ∀ c w, Γ c = some w →
    ∃ task, .spawned c task ∈ es ∧ Progress serde c (taskRows serde task) es db w
  known : ∀ c q a, .performed c q a ∈ es → ∃ task, .spawned c task ∈ es
  settled : ∀ c, ∀ i ∈ issuedTo c es, StoredAt serde db i ∨
    ∃ task, .spawned c task ∈ es ∧ 0 < requestsOf c es ∧
      requestsOf c es ≤ 3 * (taskRows serde task).length
  injective : ∀ id id' i, db.tradeIds.lookup id = some i → db.tradeIds.lookup id' = some i → id = id'
  positive : ∀ i v, db.trades.lookup i = some v → 0 < i
  positiveIds : ∀ id i, db.tradeIds.lookup id = some i → 0 < i

end Attribution

section Steps

variable {serde : SerdeJson} {checks : Bool} {es : List FeedEvent} {db db' : TradeDb}
  {Γ : ℕ → Option Writer} {c : ℕ} {w : Writer} {rows : List Row}

theorem StoredAt.extends {i : ℕ} (h : StoredAt serde db i) (ext : Extends db db') :
    StoredAt serde db' i := by
  obtain ⟨trade, htrade, hid⟩ := h
  exact ⟨trade, ext.trades _ _ htrade, ext.tradeIds _ _ hid⟩

/-- What an unfinished client was given is lost only if it had requests answered. -/
theorem Progress.settles (h : Progress serde c rows es db w) : ∀ i ∈ issuedTo c es,
    StoredAt serde db i ∨ 0 < requestsOf c es ∧ requestsOf c es ≤ 3 * rows.length := by
  intro i hi
  induction w with
  | loop todo batch =>
    obtain ⟨hlength, hrequests, hissued⟩ := h
    have hpos : 0 < batch.length := by
      rw [hissued] at hi
      exact List.length_pos_of_mem (List.mem_map.mp hi).choose_spec.1
    exact Or.inr ⟨by omega, by omega⟩
  | counted row index todo batch =>
    obtain ⟨hlength, hrequests, _⟩ := h
    exact Or.inr ⟨by omega, by omega⟩
  | checked row index todo batch =>
    obtain ⟨hlength, hrequests, _⟩ := h
    exact Or.inr ⟨by omega, by omega⟩
  | publishing trades => exact Or.inl (h i hi)
  | halted w ih => exact ih h
  | reader =>
    rw [Progress] at h
    rw [h] at hi
    cases hi

theorem Progress.frame {es' : List FeedEvent} (h : Progress serde c rows es db w)
    (requests : requestsOf c es' = requestsOf c es) (issued : issuedTo c es' = issuedTo c es)
    (ext : Extends db db') : Progress serde c rows es' db' w := by
  induction w with
  | loop todo batch =>
    rw [Progress, requests, issued]
    exact h
  | counted row index todo batch =>
    rw [Progress, requests, issued]
    exact h
  | checked row index todo batch =>
    rw [Progress, requests, issued]
    exact h
  | publishing trades =>
    rw [Progress, issued]
    exact fun i hi => (h i hi).extends ext
  | halted w ih => exact ih h
  | reader => exact issued.trans h

theorem Progress.start (task : Task) (fresh : ∀ q a, .performed c q a ∉ es) :
    Progress serde c (taskRows serde task) es db (.start serde task) := by
  have hrequests := requestsOf_eq_zero fresh
  have hissued := issuedTo_eq_nil fresh
  cases task with
  | message text redisConnection => exact ⟨Nat.zero_add _, hrequests, hissued⟩
  | tradesCount => exact hissued
  | trades startIndex limit => exact hissued

theorem trades_storeTrades_of_mem (db : TradeDb) {batch : List (Trade × ℕ)}
    (nodup : (batch.map Prod.snd).Nodup) {entry : Trade × ℕ} (mem : entry ∈ batch) :
    (db.storeTrades serde batch).trades.lookup entry.2 = some (serde.tradeToVec entry.1) := by
  induction batch generalizing db with
  | nil => cases mem
  | cons first batch ih =>
    obtain ⟨hfirst, hnodup⟩ := List.nodup_cons.mp nodup
    rw [storeTrades_cons]
    rcases List.mem_cons.mp mem with rfl | hmem
    · rw [trades_storeTrades_of_not_mem serde _ _ hfirst]
      exact Finmap.lookup_insert _
    · exact ih _ hnodup hmem

theorem Progress.perform (h : Progress serde c rows es db w) (app : Appending es db Γ)
    (ghost : Γ c = some w) {q : Await} {a : Answer q} (allowed : w.allows serde q)
    (effect : Effect serde checks db q a db') :
    Progress serde c rows (es ++ [.performed c q a]) db' (w.next q a) := by
  cases effect with
  | failed q e =>
    have hissued : issuedTo c (es ++ [.performed c (.run q) (.error e)]) = issuedTo c es :=
      issuedTo_same (by cases q <;> rfl)
    have hkept := h.frame (requestsOf_same (e := .performed c (.run q) (.error e)) rfl) hissued
      (.refl db)
    by_cases hw : w = .reader
    · subst hw
      exact hkept
    · rw [Writer.next_error hw]
      exact hkept
  | counted new advanced =>
    obtain ⟨row, todo, batch, rfl⟩ := Writer.allows_counter allowed
    obtain ⟨hlength, hrequests, hissued⟩ := h
    refine ⟨by rw [← hlength, List.length_cons]; omega, ?_, ?_⟩
    · rw [requestsOf_ok, hrequests]
    · rw [issuedTo_counter, hissued]
  | checked id =>
    obtain ⟨row, index, todo, batch, rfl, rfl⟩ := Writer.allows_check allowed
    obtain ⟨hlength, hrequests, hissued⟩ := h
    have hunused : Unused db index := (app.fits c _ ghost).2
    have hnone : (db.tradeIds.lookup (tradeIdOf index row.price)).isSome = false := by
      rw [app.check_fresh hunused]
      rfl
    rw [hnone]
    refine ⟨hlength, ?_, ?_⟩
    · rw [requestsOf_ok, hrequests]
    · rw [issuedTo_same rfl, hissued]
  | reserved id index =>
    obtain ⟨row, todo, batch, rfl, rfl⟩ := Writer.allows_reserve allowed
    obtain ⟨hlength, hrequests, hissued⟩ := h
    refine ⟨by rw [List.length_append, List.length_singleton]; exact hlength, ?_, ?_⟩
    · rw [requestsOf_ok, hrequests, List.length_append, List.length_singleton]
      omega
    · rw [issuedTo_same rfl, hissued, List.map_append]
      rfl
  | stored batch =>
    obtain ⟨rfl, _⟩ := Writer.allows_batch allowed
    obtain ⟨_, _, hissued⟩ := h
    have hfits : Reserved db batch := app.fits c _ ghost
    intro i hi
    rw [issuedTo_same rfl, hissued] at hi
    obtain ⟨entry, hentry, rfl⟩ := List.mem_map.mp hi
    refine ⟨entry.1, trades_storeTrades_of_mem db (app.owned_nodup c _ ghost) hentry, ?_⟩
    rw [tradeIds_storeTrades_of_reserved serde db batch fun entry he => (hfits entry he).1]
    exact (hfits entry hentry).1
  | total =>
    obtain rfl := Writer.allows_read (by trivial) allowed
    exact (issuedTo_same rfl).trans h
  | recent n trades => exact absurd allowed Writer.not_allows_recent
  | range startIndex limit trades =>
    obtain rfl := Writer.allows_read (by trivial) allowed
    exact (issuedTo_same rfl).trans h
  | published channel payload r =>
    obtain ⟨trade, trades, rfl, _⟩ := Writer.allows_publish allowed
    have hkept : ∀ i ∈ issuedTo c (es ++ [.performed c (.publish channel payload) r]),
        StoredAt serde db i := by
      rw [issuedTo_same rfl]
      exact h
    cases r with
    | ok _ => exact hkept
    | error e => exact hkept

theorem issued_pos (app : Appending es db Γ) {i : ℕ} (h : i ∈ issuedTo c es) : 0 < i := by
  have hmem := mem_issuedIndices_iff.mpr ⟨c, h⟩
  rw [app.issued, List.mem_range'_1] at hmem
  exact hmem.1

namespace Attributed

theorem initial : Attributed serde [] FeedStore.first.db fun _ => none := by
  rw [first_db]
  exact ⟨nofun, nofun, nofun, by simp, by simp, by simp⟩

theorem tables (h : Attributed serde es db Γ) (app : Appending es db Γ) (ghost : Γ c = some w)
    {q : Await} {a : Answer q} (allowed : w.allows serde q)
    (effect : Effect serde checks db q a db') :
    (∀ id id' i, db'.tradeIds.lookup id = some i → db'.tradeIds.lookup id' = some i → id = id') ∧
    (∀ i v, db'.trades.lookup i = some v → 0 < i) ∧
    ∀ id i, db'.tradeIds.lookup id = some i → 0 < i := by
  cases effect with
  | reserved id index =>
    obtain ⟨row, todo, batch, rfl, rfl⟩ := Writer.allows_reserve allowed
    have hunused : Unused db index := (app.fits c _ ghost).2
    obtain ⟨_, _, _, _, hissued⟩ := h.live c _ ghost
    have hpos : 0 < index := issued_pos (c := c) app (by rw [hissued]; simp)
    simp only [tradeIds_storeId, Table.lookup_insert_ite, trades_storeId]
    refine ⟨fun id id' i hi hi' => ?_, h.positive, fun id i hi => ?_⟩
    · split_ifs at hi hi' with hid hid' hid'
      · rw [hid, hid']
      · cases hi
        exact absurd hi' (hunused.2 id')
      · cases hi'
        exact absurd hi (hunused.2 id)
      · exact h.injective id id' i hi hi'
    · split_ifs at hi with hid
      · cases hi
        exact hpos
      · exact h.positiveIds id i hi
  | stored batch =>
    obtain ⟨rfl, _⟩ := Writer.allows_batch allowed
    have hfits : Reserved db batch := app.fits c _ ghost
    obtain ⟨_, _, _, _, hissued⟩ := h.live c _ ghost
    rw [tradeIds_storeTrades_of_reserved serde db batch fun entry he => (hfits entry he).1]
    refine ⟨h.injective, fun i v hi => ?_, h.positiveIds⟩
    by_cases hmem : i ∈ batch.map Prod.snd
    · exact issued_pos (c := c) app (hissued ▸ hmem)
    · rw [trades_storeTrades_of_not_mem serde db batch hmem] at hi
      exact h.positive i v hi
  | _ => exact ⟨h.injective, h.positive, h.positiveIds⟩

theorem perform (h : Attributed serde es db Γ) (app : Appending es db Γ) (ghost : Γ c = some w)
    {q : Await} {a : Answer q} (allowed : w.allows serde q)
    (effect : Effect serde checks db q a db') :
    Attributed serde (es ++ [.performed c q a]) db' (Function.update Γ c (some (w.next q a))) := by
  have hext := app.extends_perform ghost allowed effect
  obtain ⟨task, hspawned, hprogress⟩ := h.live c w ghost
  have hspawned' : .spawned c task ∈ es ++ [.performed c q a] := List.mem_append_left _ hspawned
  have hnext := hprogress.perform app ghost allowed effect
  obtain ⟨hinjective, hpositive, hpositiveIds⟩ := h.tables app ghost allowed effect
  refine ⟨fun d v hd => ?_, fun d q' a' hd => ?_, fun d i hi => ?_, hinjective, hpositive,
    hpositiveIds⟩
  · rcases Clients.update_cases hd with ⟨rfl, hv⟩ | ⟨hdc, hold⟩
    · cases hv
      exact ⟨task, hspawned', hnext⟩
    · obtain ⟨task', htask', hv⟩ := h.live d v hold
      exact ⟨task', List.mem_append_left _ htask', hv.frame (requestsOf_other (Ne.symm hdc) q a)
        (issuedTo_other (Ne.symm hdc) q a) hext⟩
  · rcases List.mem_append.mp hd with hold | hnew
    · obtain ⟨task', htask'⟩ := h.known d q' a' hold
      exact ⟨task', List.mem_append_left _ htask'⟩
    · cases List.mem_singleton.mp hnew
      exact ⟨task, hspawned'⟩
  · by_cases hdc : d = c
    · subst hdc
      rcases hnext.settles i hi with hstored | hlost
      · exact Or.inl hstored
      · exact Or.inr ⟨task, hspawned', hlost⟩
    · rw [issuedTo_other (Ne.symm hdc)] at hi
      rw [requestsOf_other (Ne.symm hdc)]
      rcases h.settled d i hi with hstored | ⟨task', htask', hlost⟩
      · exact Or.inl (hstored.extends hext)
      · exact Or.inr ⟨task', List.mem_append_left _ htask', hlost⟩

theorem quiet (h : Attributed serde es db Γ) {es' : List FeedEvent} {Γ' : ℕ → Option Writer}
    (grows : ∀ c task, .spawned c task ∈ es → .spawned c task ∈ es')
    (performed : ∀ c q a, .performed c q a ∈ es' → .performed c q a ∈ es)
    (requests : ∀ c, requestsOf c es' = requestsOf c es) (issued : ∀ c, issuedTo c es' = issuedTo c es)
    (trades : db'.trades = db.trades) (tradeIds : db'.tradeIds = db.tradeIds)
    (ghosts : ∀ d v, Γ' d = some v → Γ d = some v ∨ ∃ task, v = .start serde task ∧
      .spawned d task ∈ es' ∧ ∀ q a, .performed d q a ∉ es') :
    Attributed serde es' db' Γ' := by
  have hext : Extends db db' := ⟨fun _ _ hi => trades ▸ hi, fun _ _ hi => tradeIds ▸ hi⟩
  refine ⟨fun d v hd => ?_, fun d q a hd => ?_, fun d i hi => ?_, tradeIds ▸ h.injective,
    trades ▸ h.positive, tradeIds ▸ h.positiveIds⟩
  · rcases ghosts d v hd with hold | ⟨task, rfl, hspawned, hfresh⟩
    · obtain ⟨task, hspawned, hprogress⟩ := h.live d v hold
      exact ⟨task, grows d task hspawned, hprogress.frame (requests d) (issued d) hext⟩
    · exact ⟨task, hspawned, Progress.start task hfresh⟩
  · obtain ⟨task, hspawned⟩ := h.known d q a (performed d q a hd)
    exact ⟨task, grows d task hspawned⟩
  · rw [issued] at hi
    rw [requests]
    rcases h.settled d i hi with hstored | ⟨task, hspawned, hlost⟩
    · exact Or.inl (hstored.extends hext)
    · exact Or.inr ⟨task, grows d task hspawned, hlost⟩

end Attributed

end Steps

section Runs

variable (serde : SerdeJson) (checks : Bool)

theorem attributed_preserved :
    (feed serde checks).Preserved (writerProtocol serde) (fun w _ => w.Ended) (Writer.start serde)
      fun es s Γ => FewIssued checks es → Appending es s.db Γ ∧ Attributed serde es s.db Γ := by
  have hpres := appending_preserved serde checks
  refine ⟨hpres.obeys, ?_, ?_, ?_, ?_, ?_⟩
  · intro es s Γ i task inv dead unspawned few
    obtain ⟨happ, hattr⟩ := inv few.of_append
    refine ⟨hpres.spawn i task (fun _ => happ) dead unspawned few, hattr.quiet ?_ ?_ ?_ ?_ rfl rfl ?_⟩
    · exact fun _ _ hs => List.mem_append_left _ hs
    · intro c q a hp
      simpa using hp
    · exact fun c => requestsOf_same rfl
    · exact fun c => issuedTo_same rfl
    · intro d v hd
      rcases Clients.update_cases hd with ⟨rfl, hv⟩ | ⟨_, hold⟩
      · refine Or.inr ⟨task, (Option.some.inj hv).symm, by simp, fun q a hp => ?_⟩
        obtain ⟨task', htask'⟩ := hattr.known d q a (by simpa using hp)
        exact unspawned task' htask'
      · exact Or.inl hold
  · intro es s Γ i w q env inv ghost allowed few
    obtain ⟨happ, hattr⟩ := inv few.of_append
    exact ⟨hpres.perform i w q env (fun _ => happ) ghost allowed few,
      hattr.perform happ ghost allowed (perform_effect serde checks q env s)⟩
  · intro es s Γ i w r inv ghost ended few
    obtain ⟨happ, hattr⟩ := inv few.of_append
    refine ⟨hpres.returned i w r (fun _ => happ) ghost ended few,
      hattr.quiet ?_ ?_ ?_ ?_ rfl rfl ?_⟩
    · exact fun _ _ hs => List.mem_append_left _ hs
    · intro c q a hp
      simpa using hp
    · exact fun c => requestsOf_same rfl
    · exact fun c => issuedTo_same rfl
    · exact fun d v hd => Or.inl (Clients.update_none_cases hd)
  · intro es s Γ i inv few
    obtain ⟨happ, hattr⟩ := inv few
    exact ⟨hpres.drop i (fun _ => happ) few, hattr.quiet (fun _ _ hs => hs) (fun _ _ _ hp => hp)
      (fun _ => rfl) (fun _ => rfl) rfl rfl fun d v hd => Or.inl (Clients.update_none_cases hd)⟩
  · intro es s Γ env inv few
    obtain ⟨happ, hattr⟩ := inv few
    have hkept : (reboot env s).db.trades = s.db.trades ∧
        (reboot env s).db.tradeIds = s.db.tradeIds := by
      rcases reboot_cases env s with hsame | ⟨_, hset⟩
      · rw [hsame]
        exact ⟨rfl, rfl⟩
      · rw [hset]
        exact ⟨rfl, rfl⟩
    exact ⟨hpres.restart env (fun _ => happ) few, hattr.quiet (fun _ _ hs => hs)
      (fun _ _ _ hp => hp) (fun _ => rfl) (fun _ => rfl) hkept.1 hkept.2 nofun⟩

/-- The tables of a feed in which no message is half way. -/
structure Consistent (db : TradeDb) : Prop where
  keys : ∀ i, i ∈ db.trades ↔ 1 ≤ i ∧ i ≤ db.total
  ids : ∀ id i, db.tradeIds.lookup id = some i →
    ∃ trade, db.trade? serde i = some trade ∧ trade.id = id
  count : handleGetTotalTradesCount db [] =
    (.ok (db.trades.keys.filter fun i => (db.trade? serde i).isSome).card, db, [])

/-- Every message has no row, or none of its requests was executed, or all of them were. -/
def AllOrNothing (es : List FeedEvent) : Prop :=
  ∀ c text redisConnection, .spawned c (.message text redisConnection) ∈ es →
    messageRows serde text = [] ∨ requestsOf c es = 0 ∨
      3 * (messageRows serde text).length + 1 ≤ requestsOf c es

variable {serde checks} {es : List FeedEvent} {db : TradeDb} {Γ : ℕ → Option Writer}

theorem Attributed.consistent (h : Attributed serde es db Γ) (app : Appending es db Γ)
    (whole : AllOrNothing serde es) : Consistent serde db := by
  have hstored : ∀ i, 1 ≤ i → i ≤ db.total → StoredAt serde db i := by
    intro i hpos hle
    have hmem : i ∈ issuedIndices es := by
      rw [app.issued, List.mem_range'_1]
      omega
    obtain ⟨c, hc⟩ := mem_issuedIndices_iff.mp hmem
    rcases h.settled c i hc with hstored | ⟨task, hspawned, hfirst, hlast⟩
    · exact hstored
    · cases task with
      | message text redisConnection =>
        rw [taskRows] at hlast
        rcases whole c text redisConnection hspawned with hnil | hzero | hall
        · rw [hnil, List.length_nil] at hlast
          omega
        · omega
        · omega
      | tradesCount =>
        rw [taskRows, List.length_nil] at hlast
        omega
      | trades startIndex limit =>
        rw [taskRows, List.length_nil] at hlast
        omega
  have hread : ∀ i, 1 ≤ i → i ≤ db.total → ∃ trade, db.trade? serde i = some trade ∧
      db.tradeIds.lookup trade.id = some i := by
    intro i hpos hle
    obtain ⟨trade, htrade, hid⟩ := hstored i hpos hle
    exact ⟨trade, by simp [TradeDb.trade?, htrade, serde.tradeFromSlice_toVec, Except.toOption], hid⟩
  have hkeys : ∀ i, i ∈ db.trades ↔ 1 ≤ i ∧ i ≤ db.total := by
    intro i
    rw [Finmap.mem_iff]
    constructor
    · rintro ⟨v, hv⟩
      exact ⟨h.positive i v hv, app.keys i v hv⟩
    · rintro ⟨hpos, hle⟩
      obtain ⟨trade, htrade, _⟩ := hstored i hpos hle
      exact ⟨_, htrade⟩
  refine ⟨hkeys, fun id i hi => ?_, ?_⟩
  · obtain ⟨trade, htrade, hid⟩ := hread i (h.positiveIds id i hi) (app.ids id i hi).1
    exact ⟨trade, htrade, h.injective _ _ i hid hi⟩
  · have hreadable : (db.trades.keys.filter fun i => (db.trade? serde i).isSome) =
        Finset.Icc 1 db.total := by
      ext i
      rw [Finset.mem_filter, Finmap.mem_keys, hkeys, Finset.mem_Icc, and_iff_left_iff_imp]
      rintro ⟨hpos, hle⟩
      obtain ⟨trade, htrade, _⟩ := hread i hpos hle
      rw [htrade]
      rfl
    have htotal : handleGetTotalTradesCount db [] = (.ok db.total, db, []) := rfl
    rw [hreadable, Nat.card_Icc, Nat.add_sub_cancel, htotal]

end Runs

section Stops

variable {serde : SerdeJson} {checks : Bool} {text : String} {redisConnection : Bool}
  {s s' : FeedStore} {answers : List (Σ q, Answer q)}

theorem Midway.phase {base db : TradeDb} {rows : List Row} {requests : ℕ} {w : Writer}
    (h : Midway base rows requests db w) (all : 3 * rows.length + 1 ≤ requests) :
    (∃ trades, w = .publishing trades) ∨ ∃ trades, w = .halted (.publishing trades) := by
  induction w with
  | loop todo batch =>
    obtain ⟨done, rfl, _, hrequests, _⟩ := h
    rw [hrequests, List.length_append] at all
    omega
  | counted row index todo batch =>
    obtain ⟨done, rfl, _, _, hrequests, _⟩ := h
    rw [hrequests, List.length_append, List.length_cons] at all
    omega
  | checked row index todo batch =>
    obtain ⟨done, rfl, _, _, hrequests, _⟩ := h
    rw [hrequests, List.length_append, List.length_cons] at all
    omega
  | publishing trades => exact Or.inl ⟨trades, rfl⟩
  | halted w ih =>
    rcases ih h.2 with ⟨trades, rfl⟩ | ⟨trades, rfl⟩
    · exact Or.inr ⟨trades, rfl⟩
    · exact absurd rfl (h.1 _)
  | reader => exact h.elim

theorem completes_of_requests (ground : Ground s.db)
    (few : checks = false → s.db.total + (messageRows serde text).length < 2 ^ 64)
    {inputs : List Env} {p : Proc Await Answer Outcome}
    (run : (handling serde checks).run ((Task.message text redisConnection).start serde, s) inputs =
      some ((p, s'), answers))
    (all : 3 * (messageRows serde text).length + 1 ≤ requestsAnswered answers) :
    ∃ t answers', Completes serde checks text redisConnection s t answers' ∧ t.db = s'.db := by
  obtain ⟨w, obeys, hmidway, hfailed⟩ := handling_stops ground few run
  have hunfailed : ¬ w.Failed → ∀ a ∈ answers, answeredError a = false := by
    intro hw a ha
    cases herror : answeredError a with
    | false => rfl
    | true => exact absurd (hfailed.mp ⟨a, ha, herror⟩) hw
  have hphase : (∃ trades, w = .publishing trades) ∨ ∃ trades, w = .halted (.publishing trades) :=
    hmidway.phase all
  rcases hphase with ⟨trades, rfl⟩ | ⟨trades, rfl⟩
  · obtain ⟨inputs', r, answers', hfinish, hfine⟩ :=
      publications_finish checks obeys s'
    refine ⟨s', answers ++ answers', ⟨⟨inputs ++ inputs', r, Machine.run_append _ run hfinish⟩, ?_⟩,
      rfl⟩
    intro a ha
    rcases List.mem_append.mp ha with hold | hnew
    · exact hunfailed not_false a hold
    · exact hfine a hnew
  · obtain ⟨r, rfl⟩ := returned_of_silent obeys fun _ => not_false
    exact ⟨s', answers, ⟨⟨inputs, r, run⟩, hunfailed not_false⟩, rfl⟩

end Stops

/-- From every reachable store, a handling that stops anywhere leaves the tables as before it or
as after all of it exactly when the message has no row, or none of its requests to the database
was executed, or all of them were. In a run of such handlings the tables agree with each other. -/
theorem handling_all_or_nothing_iff {serde : SerdeJson} {checks : Bool}
    {inputs : List (ClientInput Task Env)} {s : Clients.State Await Answer Outcome FeedStore}
    {es : List FeedEvent}
    (run : (feed serde checks).machine.run (.initial .first) inputs = some (s, es))
    (few : FewIssued checks es) :
    (∀ (text : String) (redisConnection : Bool) (envs : List Env) (p : Proc Await Answer Outcome)
        (s' : FeedStore) (answers : List (Σ q, Answer q)),
      (checks = false → (issuedIndices es).length + (messageRows serde text).length < 2 ^ 64) →
      (handling serde checks).run ((Task.message text redisConnection).start serde, s.store) envs =
        some ((p, s'), answers) →
      ((s'.db = s.store.db ∨ ∃ t answers',
          Completes serde checks text redisConnection s.store t answers' ∧ t.db = s'.db) ↔
        messageRows serde text = [] ∨ requestsAnswered answers = 0 ∨
          3 * (messageRows serde text).length + 1 ≤ requestsAnswered answers)) ∧
    (AllOrNothing serde es → Consistent serde s.store.db) := by
  obtain ⟨Γ, hghosted⟩ := Clients.invariant (attributed_preserved serde checks)
    (fun _ => ⟨.initial, .initial⟩) run
  obtain ⟨happ, hattr⟩ := hghosted.inv few
  refine ⟨fun text redisConnection envs p s' answers fits stop => ?_, hattr.consistent happ⟩
  have hfits : checks = false → s.store.db.total + (messageRows serde text).length < 2 ^ 64 := by
    rw [happ.total_eq]
    exact fits
  obtain ⟨w, _, hmidway, _⟩ := handling_stops happ.ground hfits stop
  rcases hmidway.tables with ⟨hnone, hdb⟩ | ⟨hrows, hfirst, hlast, htotal, htrades⟩ |
    ⟨hrows, hall, _⟩
  · exact iff_of_true (Or.inl hdb) (hnone.imp_right Or.inl)
  · refine iff_of_false ?_ ?_
    · rintro (hdb | ⟨t, answers', hcompletes, ht⟩)
      · exact htotal (congrArg TradeDb.total hdb)
      · rcases hcompletes.tables happ.ground hfits with ⟨hnil, _⟩ | ⟨_, _, hsome, _⟩
        · exact hrows hnil
        · obtain ⟨v, hv⟩ := Option.isSome_iff_exists.mp hsome
          rw [ht, htrades] at hv
          exact absurd (happ.keys _ v hv) (Nat.not_succ_le_self _)
    · rintro (hnil | hzero | hall)
      · exact hrows hnil
      · omega
      · omega
  · exact iff_of_true (Or.inr (completes_of_requests happ.ground hfits stop hall))
      (Or.inr (Or.inr hall))

def wholeBy (serde : SerdeJson) (es : List FeedEvent) : FeedEvent → Bool
  | .spawned c (.message text _) =>
    decide (3 * (messageRows serde text).length + 1 ≤ requestsOf c es)
  | _ => true

def handledInputs : List (ClientInput Task Env) :=
  [.spawn (.message tradeText false), .perform 0 .fine, .deliver 0, .perform 0 .fine, .deliver 0,
    .perform 0 .fine, .deliver 0, .perform 0 .fine, .deliver 0, .restart .fine]

theorem handled_consistent : ∃ s es,
    (feed tradeJson true).machine.run (.initial .first) handledInputs = some (s, es) ∧
    Consistent tradeJson s.store.db := by
  have hrun : ((feed tradeJson true).machine.run (.initial .first) handledInputs).map
      (fun p => p.2.all (wholeBy tradeJson p.2)) = some true := by
    decide +kernel
  obtain ⟨⟨s, es⟩, run, hall⟩ := Option.map_eq_some_iff.mp hrun
  have h := handling_all_or_nothing_iff run nofun
  refine ⟨s, es, run, h.2 fun c text redisConnection hspawned => Or.inr (Or.inr ?_)⟩
  simpa [wholeBy] using List.all_eq_true.mp hall _ hspawned

/-- Stopped after its first request, the message has moved the counter and stored nothing; and
so it stays after a restart. -/
theorem stopped_half_way :
    (∃ p s' answers,
      (handling tradeJson true).run ((Task.message tradeText true).start tradeJson, .first)
        [.fine] = some ((p, s'), answers) ∧
      s'.db ≠ FeedStore.first.db ∧
      ¬ ∃ t answers', Completes tradeJson true tradeText true .first t answers' ∧ t.db = s'.db) ∧
    ∃ s es, (feed tradeJson true).machine.run (.initial .first)
        [.spawn (.message tradeText true), .perform 0 .fine, .restart .fine] = some (s, es) ∧
      s.store.db.total = 1 ∧ s.store.db.trades.lookup 1 = none := by
  constructor
  · have hrun : ((handling tradeJson true).run
        ((Task.message tradeText true).start tradeJson, .first) [.fine]).map
          (fun p => (p.1.2.db.total, p.1.2.db.trades.lookup 1)) = some (1, none) := by
      decide +kernel
    obtain ⟨⟨⟨p, s'⟩, answers⟩, run, hdb⟩ := Option.map_eq_some_iff.mp hrun
    obtain ⟨htotal, hlookup⟩ := Prod.mk.inj hdb
    have hfirst : FeedStore.first.db.total = 0 := by rw [first_db, total_setTotal]
    refine ⟨p, s', answers, run, fun hsame => ?_, ?_⟩
    · rw [hsame, hfirst] at htotal
      cases htotal
    · rintro ⟨t, answers', hcompletes, ht⟩
      have hrows : messageRows tradeJson tradeText = [tradeRowText] := by decide +kernel
      rcases hcompletes.tables Appending.initial.ground nofun with ⟨hnil, _⟩ | ⟨_, _, hsome, _⟩
      · rw [hrows] at hnil
        cases hnil
      · rw [hfirst, ht, hlookup] at hsome
        cases hsome
  · have hrun : ((feed tradeJson true).machine.run (.initial .first)
        [.spawn (.message tradeText true), .perform 0 .fine, .restart .fine]).map
          (fun p => (p.1.store.db.total, p.1.store.db.trades.lookup 1)) = some (1, none) := by
      decide +kernel
    obtain ⟨⟨s, es⟩, run, hdb⟩ := Option.map_eq_some_iff.mp hrun
    obtain ⟨htotal, hlookup⟩ := Prod.mk.inj hdb
    exact ⟨s, es, run, htotal, hlookup⟩

end RustExperiments.TradeFeed
