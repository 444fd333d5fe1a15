/- module: RustExperiments/TradeFeed/AppendOnly
   digest: Indices are issued once and entries are never overwritten, for any concurrent writers. -/

import RustExperiments.Lib.Decimal
import RustExperiments.TradeFeed.Json
import RustExperiments.TradeFeed.Writer

set_option autoImplicit false
set_option relaxedAutoImplicit false

namespace RustExperiments.TradeFeed

open RustExperiments.Lib RustExperiments.Lib.Proc

theorem tradeIdOf_injective {i j : ℕ} {price price' : String}
    (h : tradeIdOf i price = tradeIdOf j price') : i = j :=
  decimal_dash_injective (p := price) (q := price') h

section Batch

variable (serde : SerdeJson)

theorem trades_storeTrades_of_not_mem (db : TradeDb) (batch : List (Trade × ℕ)) {i : ℕ}
    (h : i ∉ batch.map Prod.snd) :
    (db.storeTrades serde batch).trades.lookup i = db.trades.lookup i := by
  induction batch generalizing db with
  | nil => rfl
  | cons entry batch ih =>
    rw [List.map_cons, List.mem_cons, not_or] at h
    rw [storeTrades_cons, ih _ h.2]
    simp [h.1]

theorem tradeIds_storeTrades_of_reserved (db : TradeDb) (batch : List (Trade × ℕ))
    (h : ∀ entry ∈ batch, db.tradeIds.lookup entry.1.id = some entry.2) :
    (db.storeTrades serde batch).tradeIds = db.tradeIds := by
  induction batch generalizing db with
  | nil => rfl
  | cons entry batch ih =>
    have hself := Table.insert_lookup_self _ (h entry List.mem_cons_self)
    rw [storeTrades_cons, ih]
    · exact hself
    · intro other hother
      change (db.tradeIds.insert entry.1.id entry.2).lookup other.1.id = some other.2
      rw [hself]
      exact h other (List.mem_cons_of_mem _ hother)

theorem trades_storeTrades_bound (db : TradeDb) (batch : List (Trade × ℕ)) {bound : ℕ}
    (old : ∀ i v, db.trades.lookup i = some v → i ≤ bound)
    (new : ∀ i ∈ batch.map Prod.snd, i ≤ bound) :
    ∀ i v, (db.storeTrades serde batch).trades.lookup i = some v → i ≤ bound := by
  intro i v h
  by_cases hmem : i ∈ batch.map Prod.snd
  · exact new i hmem
  · rw [trades_storeTrades_of_not_mem serde db batch hmem] at h
    exact old i v h

end Batch

section Ownership

/-- The indices that a writer still has to write under. -/
def Writer.owned : Writer → List ℕ
  | .loop _ batch => batch.map Prod.snd
  | .counted _ index _ batch => index :: batch.map Prod.snd
  | .checked _ index _ batch => index :: batch.map Prod.snd
  | _ => []

def Reserved (db : TradeDb) (batch : List (Trade × ℕ)) : Prop :=
  ∀ entry ∈ batch, db.tradeIds.lookup entry.1.id = some entry.2 ∧
    db.trades.lookup entry.2 = none

def Unused (db : TradeDb) (index : ℕ) : Prop :=
  db.trades.lookup index = none ∧ ∀ id, db.tradeIds.lookup id ≠ some index

def Writer.Fits (db : TradeDb) : Writer → Prop
  | .loop _ batch => Reserved db batch
  | .counted _ index _ batch => Reserved db batch ∧ Unused db index
  | .checked _ index _ batch => Reserved db batch ∧ Unused db index
  | _ => True

def Writer.Idle : Writer → Prop
  | .publishing _ => True
  | .halted _ => True
  | .reader => True
  | _ => False

theorem Writer.Idle.owned {w : Writer} (h : w.Idle) : w.owned = [] := by
  cases w <;> first | rfl | exact h.elim

theorem Writer.Idle.fits {w : Writer} (h : w.Idle) (db : TradeDb) : w.Fits db := by
  cases w <;> trivial

theorem Writer.Fits.frame {db db' : TradeDb} {w : Writer} (h : w.Fits db)
    (trades : ∀ i ∈ w.owned, db'.trades.lookup i = db.trades.lookup i)
    (kept : ∀ id i, db.tradeIds.lookup id = some i → db'.tradeIds.lookup id = some i)
    (added : ∀ id i, i ∈ w.owned → db'.tradeIds.lookup id = some i →
      db.tradeIds.lookup id = some i) : w.Fits db' := by
  have hreserved : ∀ batch, (∀ i ∈ batch.map Prod.snd, i ∈ w.owned) → Reserved db batch →
      Reserved db' batch := by
    intro batch hmem hres entry hentry
    obtain ⟨hid, htrade⟩ := hres entry hentry
    exact ⟨kept _ _ hid, by rw [trades _ (hmem _ (List.mem_map_of_mem hentry)), htrade]⟩
  have hunused : ∀ index, index ∈ w.owned → Unused db index → Unused db' index := by
    intro index hmem hun
    exact ⟨by rw [trades _ hmem, hun.1], fun id hid => hun.2 id (added _ _ hmem hid)⟩
  cases w with
  | loop todo batch => exact hreserved batch (fun _ hi => hi) h
  | counted row index todo batch =>
    exact ⟨hreserved batch (fun _ hi => List.mem_cons_of_mem _ hi) h.1,
      hunused index List.mem_cons_self h.2⟩
  | checked row index todo batch =>
    exact ⟨hreserved batch (fun _ hi => List.mem_cons_of_mem _ hi) h.1,
      hunused index List.mem_cons_self h.2⟩
  | _ => trivial

end Ownership

structure Extends (db db' : TradeDb) : Prop where
  trades : ∀ i v, db.trades.lookup i = some v → db'.trades.lookup i = some v
  tradeIds : ∀ id i, db.tradeIds.lookup id = some i → db'.tradeIds.lookup id = some i

theorem Extends.refl (db : TradeDb) : Extends db db := ⟨fun _ _ h => h, fun _ _ h => h⟩

theorem Extends.setTotal (db : TradeDb) (total : ℕ) : Extends db (db.setTotal total) :=
  ⟨fun _ _ h => h, fun _ _ h => h⟩

theorem Extends.trans {a b c : TradeDb} (h : Extends a b) (h' : Extends b c) : Extends a c :=
  ⟨fun i v hi => h'.trades i v (h.trades i v hi),
    fun id i hi => h'.tradeIds id i (h.tradeIds id i hi)⟩

abbrev FeedEvent := ClientEvent Await Answer Outcome Task

def issuedIndex : FeedEvent → Option ℕ
  | .performed _ (.run .getNextTradeCounter) (.ok index) => some index
  | _ => none

/-- The indices that `GetNextTradeCounterRequest` returned, in order. -/
def issuedIndices (es : List FeedEvent) : List ℕ := es.filterMap issuedIndex

@[simp] theorem issuedIndices_append (xs ys : List FeedEvent) :
    issuedIndices (xs ++ ys) = issuedIndices xs ++ issuedIndices ys := List.filterMap_append ..

/-- What the tables, the issued indices and the writers say about each other. -/
structure Appending (es : List FeedEvent) (db : TradeDb) (Γ : ℕ → Option Writer) : Prop where
  issued : issuedIndices es = List.range' 1 db.total
  keys : ∀ i v, db.trades.lookup i = some v → i ≤ db.total
  ids : ∀ id i, db.tradeIds.lookup id = some i → i ≤ db.total ∧ ∃ price, id = tradeIdOf i price
  owned_le : ∀ c w, Γ c = some w → ∀ i ∈ w.owned, i ≤ db.total
  owned_nodup : ∀ c w, Γ c = some w → w.owned.Nodup
  disjoint : ∀ c d w v, Γ c = some w → Γ d = some v → c ≠ d → ∀ i ∈ w.owned, i ∉ v.owned
  fits : ∀ c w, Γ c = some w → w.Fits db
  unchecked : ∀ c id b, ClientEvent.performed c (.run (.checkIdExists id)) (.ok b) ∈ es → b = false

namespace Appending

variable {es es' : List FeedEvent} {db db' : TradeDb} {Γ : ℕ → Option Writer} {c : ℕ}
  {w w' : Writer} {serde : SerdeJson} {checks : Bool}

theorem initial : Appending [] FeedStore.first.db fun _ => none := by
  rw [first_db]
  constructor
  · rfl
  · simp
  · simp
  · simp
  · simp
  · simp
  · simp
  · simp

theorem update (h : Appending es db Γ) (ghost : Γ c = some w)
    (issued : issuedIndices es' = List.range' 1 db'.total) (total_le : db.total ≤ db'.total)
    (keys : ∀ i v, db'.trades.lookup i = some v → i ≤ db'.total)
    (ids : ∀ id i, db'.tradeIds.lookup id = some i →
      i ≤ db'.total ∧ ∃ price, id = tradeIdOf i price)
    (owned : ∀ i ∈ w'.owned, i ∈ w.owned ∨ db.total < i ∧ i ≤ db'.total)
    (nodup : w'.owned.Nodup) (fits : w'.Fits db')
    (others : ∀ d v, Γ d = some v → d ≠ c → v.Fits db')
    (unchecked : ∀ c id b,
      ClientEvent.performed c (.run (.checkIdExists id)) (.ok b) ∈ es' → b = false) :
    Appending es' db' (Function.update Γ c (some w')) := by
  have hcases : ∀ d v, Function.update Γ c (some w') d = some v →
      d = c ∧ v = w' ∨ d ≠ c ∧ Γ d = some v := by
    intro d v hd
    exact (Clients.update_cases hd).imp_left fun ⟨hdc, hv⟩ => ⟨hdc, (Option.some.inj hv).symm⟩
  have hown : ∀ d v, Γ d = some v → d ≠ c → ∀ i ∈ w'.owned, i ∉ v.owned := by
    intro d v hd hdc i hi hiv
    rcases owned i hi with hold | ⟨hnew, _⟩
    · exact h.disjoint c d w v ghost hd (Ne.symm hdc) i hold hiv
    · exact absurd (h.owned_le d v hd i hiv) (Nat.not_le.mpr hnew)
  refine ⟨issued, keys, ids, ?_, ?_, ?_, ?_, unchecked⟩
  · intro d v hd i hi
    rcases hcases d v hd with ⟨rfl, rfl⟩ | ⟨_, hd⟩
    · rcases owned i hi with hold | ⟨_, hle⟩
      · exact (h.owned_le d w ghost i hold).trans total_le
      · exact hle
    · exact (h.owned_le d v hd i hi).trans total_le
  · intro d v hd
    rcases hcases d v hd with ⟨rfl, rfl⟩ | ⟨_, hd⟩
    · exact nodup
    · exact h.owned_nodup d v hd
  · intro d d' v v' hd hd' hne i hi
    rcases hcases d v hd with ⟨hdc, rfl⟩ | ⟨hdc, hold⟩
    · rcases hcases d' v' hd' with ⟨hdc', _⟩ | ⟨hdc', hold'⟩
      · exact absurd (hdc.trans hdc'.symm) hne
      · exact hown d' v' hold' hdc' i hi
    · rcases hcases d' v' hd' with ⟨_, rfl⟩ | ⟨_, hold'⟩
      · exact fun hi' => hown d v hold hdc i hi' hi
      · exact h.disjoint d d' v v' hold hold' hne i hi
  · intro d v hd
    rcases hcases d v hd with ⟨rfl, rfl⟩ | ⟨hdc, hd⟩
    · exact fits
    · exact others d v hd hdc

theorem finish (h : Appending es db Γ) (ghost : Γ c = some w) (idle : w'.Idle)
    (issued : issuedIndices es' = issuedIndices es)
    (unchecked : ∀ c id b,
      ClientEvent.performed c (.run (.checkIdExists id)) (.ok b) ∈ es' → b = false) :
    Appending es' db (Function.update Γ c (some w')) :=
  h.update ghost (issued.trans h.issued) (Nat.le_refl _) h.keys h.ids
    (fun i hi => by rw [idle.owned] at hi; cases hi) (by rw [idle.owned]; exact List.nodup_nil)
    (idle.fits db) (fun d v hd _ => h.fits d v hd) unchecked

theorem unchecked_snoc (h : Appending es db Γ) {e : FeedEvent}
    (he : ∀ c id b, e = .performed c (.run (.checkIdExists id)) (.ok b) → b = false) :
    ∀ c id b, ClientEvent.performed c (.run (.checkIdExists id)) (.ok b) ∈ es ++ [e] →
      b = false := by
  intro c id b hmem
  rcases List.mem_append.mp hmem with hold | hnew
  · exact h.unchecked c id b hold
  · exact he c id b (List.mem_singleton.mp hnew).symm

theorem total_eq (h : Appending es db Γ) : db.total = (issuedIndices es).length := by
  rw [h.issued, List.length_range']

theorem unused_next (h : Appending es db Γ) : Unused db (db.total + 1) := by
  refine ⟨?_, fun id hid => absurd (h.ids id _ hid).1 (Nat.not_succ_le_self _)⟩
  cases hlookup : db.trades.lookup (db.total + 1) with
  | none => rfl
  | some v => exact absurd (h.keys _ v hlookup) (Nat.not_succ_le_self _)

theorem counted (h : Appending es db Γ) {row : Row} {todo : List Row} {batch : List (Trade × ℕ)}
    {new : ℕ} (ghost : Γ c = some (.loop (row :: todo) batch)) (advanced : new = db.total + 1) :
    Appending (es ++ [.performed c (.run .getNextTradeCounter) (.ok new)]) (db.setTotal new)
      (Function.update Γ c (some (.counted row new todo batch))) := by
  subst advanced
  have hle := h.owned_le c _ ghost
  refine h.update ghost ?_ ?_ ?_ ?_ ?_ ?_ ?_ ?_ ?_
  · rw [issuedIndices_append, h.issued, total_setTotal, List.range'_1_concat, Nat.add_comm 1]
    rfl
  · simp
  · intro i v hi
    exact (h.keys i v hi).trans (by simp)
  · intro id i hi
    exact ⟨(h.ids id i hi).1.trans (by simp), (h.ids id i hi).2⟩
  · intro i hi
    rcases List.mem_cons.mp hi with rfl | hi
    · exact Or.inr ⟨Nat.lt_succ_self _, by simp⟩
    · exact Or.inl hi
  · refine List.nodup_cons.mpr ⟨fun hmem => ?_, h.owned_nodup c _ ghost⟩
    exact absurd (hle _ hmem) (Nat.not_succ_le_self _)
  · exact ⟨h.fits c _ ghost, h.unused_next⟩
  · intro d v hd _
    exact (h.fits d v hd).frame (fun _ _ => rfl) (fun _ _ hi => hi) (fun _ _ _ hi => hi)
  · exact h.unchecked_snoc fun _ _ _ he => by cases he

theorem check_fresh (h : Appending es db Γ) {index : ℕ} {price : String} (unused : Unused db index) :
    db.tradeIds.lookup (tradeIdOf index price) = none := by
  cases hlookup : db.tradeIds.lookup (tradeIdOf index price) with
  | none => rfl
  | some i =>
    obtain ⟨_, price', hid⟩ := h.ids _ i hlookup
    rw [← tradeIdOf_injective hid] at hlookup
    exact absurd hlookup (unused.2 _)

theorem storeId_extends (h : Appending es db Γ) {index : ℕ} {price : String}
    (unused : Unused db index) (id : String) (i : ℕ) (hi : db.tradeIds.lookup id = some i) :
    (db.storeId (tradeIdOf index price) index).tradeIds.lookup id = some i := by
  have hne : id ≠ tradeIdOf index price := by
    rintro rfl
    rw [h.check_fresh unused] at hi
    cases hi
  simpa [hne] using hi

theorem checked (h : Appending es db Γ) {row : Row} {index : ℕ} {todo : List Row}
    {batch : List (Trade × ℕ)} (ghost : Γ c = some (.counted row index todo batch)) :
    Appending
      (es ++ [.performed c (.run (.checkIdExists (tradeIdOf index row.price))) (.ok false)]) db
      (Function.update Γ c (some (.checked row index todo batch))) := by
  have hfits : Reserved db batch ∧ Unused db index := h.fits c _ ghost
  have hnodup := h.owned_nodup c _ ghost
  refine h.update ghost ?_ (Nat.le_refl _) h.keys h.ids (fun i hi => Or.inl hi) hnodup hfits
    (fun d v hd _ => h.fits d v hd) ?_
  · rw [issuedIndices_append, h.issued]
    exact List.append_nil _
  · refine h.unchecked_snoc fun _ _ _ he => ?_
    cases he
    rfl

theorem reserved (h : Appending es db Γ) {row : Row} {index : ℕ} {todo : List Row}
    {batch : List (Trade × ℕ)} (ghost : Γ c = some (.checked row index todo batch)) :
    Appending
      (es ++ [.performed c (.run (.storeIdWithIndex (tradeIdOf index row.price) index)) (.ok ())])
      (db.storeId (tradeIdOf index row.price) index)
      (Function.update Γ c (some (.loop todo (batch ++ [(row.trade index, index)])))) := by
  obtain ⟨hreserved, hunused⟩ : Reserved db batch ∧ Unused db index := h.fits c _ ghost
  have hnodup := h.owned_nodup c _ ghost
  have hkept : ∀ id i, db.tradeIds.lookup id = some i →
      (db.storeId (tradeIdOf index row.price) index).tradeIds.lookup id = some i :=
    h.storeId_extends hunused
  refine h.update ghost ?_ (Nat.le_refl _) h.keys ?_ ?_ ?_ ?_ ?_ ?_
  · rw [issuedIndices_append, h.issued]
    exact List.append_nil _
  · intro id i hi
    rw [tradeIds_storeId, Table.lookup_insert_ite] at hi
    split_ifs at hi with hid
    · cases hi
      exact ⟨h.owned_le c _ ghost index List.mem_cons_self, row.price, hid⟩
    · exact h.ids id i hi
  · intro i hi
    refine Or.inl ?_
    simpa [Writer.owned, or_comm] using hi
  · rw [Writer.owned, List.map_append]
    exact (List.nodup_append_comm.mp hnodup)
  · intro entry hentry
    rcases List.mem_append.mp hentry with hold | hnew
    · exact ⟨hkept _ _ (hreserved entry hold).1, (hreserved entry hold).2⟩
    · obtain rfl := List.mem_singleton.mp hnew
      exact ⟨by simp [Row.trade], hunused.1⟩
  · intro d v hd hdc
    refine (h.fits d v hd).frame (fun _ _ => rfl) hkept fun id i hi hid => ?_
    rw [tradeIds_storeId, Table.lookup_insert_ite] at hid
    split_ifs at hid with heq
    · cases hid
      exact absurd hi (h.disjoint c d _ v ghost hd (Ne.symm hdc) index List.mem_cons_self)
    · exact hid
  · exact h.unchecked_snoc fun _ _ _ he => by cases he

theorem stored (h : Appending es db Γ) {todo : List Row} {batch : List (Trade × ℕ)}
    (ghost : Γ c = some (.loop todo batch)) :
    Appending (es ++ [.performed c (.run (.storeTradeBatch batch)) (.ok batch.length)])
      (db.storeTrades serde batch)
      (Function.update Γ c (some (.publishing (batch.map Prod.fst)))) := by
  have hfits : Reserved db batch := h.fits c _ ghost
  have hids := tradeIds_storeTrades_of_reserved serde db batch fun entry he => (hfits entry he).1
  have howned : (Writer.loop todo batch).owned = batch.map Prod.snd := rfl
  have hle : ∀ i ∈ batch.map Prod.snd, i ≤ db.total := howned ▸ h.owned_le c _ ghost
  refine h.update ghost ?_ (by simp) ?_ ?_ (fun i hi => by cases hi) List.nodup_nil trivial ?_ ?_
  · rw [issuedIndices_append, h.issued, total_storeTrades]
    exact List.append_nil _
  · rw [total_storeTrades]
    exact trades_storeTrades_bound serde db batch h.keys hle
  · rw [total_storeTrades, hids]
    exact h.ids
  · intro d v hd hdc
    refine (h.fits d v hd).frame (fun i hi => ?_) (fun _ _ hi => hids ▸ hi)
      (fun _ _ _ hi => hids ▸ hi)
    refine trades_storeTrades_of_not_mem serde db batch fun hmem => ?_
    exact h.disjoint d c v _ hd ghost hdc i hi (howned ▸ hmem)
  · exact h.unchecked_snoc fun _ _ _ he => by cases he

theorem idle (h : Appending es db Γ) (ghost : Γ c = some w) (idle : w'.Idle) {q : Await}
    {a : Answer q} (unissued : issuedIndex (.performed c q a) = none)
    (unchecked : ∀ c' id b,
      (.performed c q a : FeedEvent) ≠ .performed c' (.run (.checkIdExists id)) (.ok b)) :
    Appending (es ++ [.performed c q a]) db (Function.update Γ c (some w')) := by
  refine h.finish ghost idle ?_ (h.unchecked_snoc fun c' id b he => absurd he (unchecked c' id b))
  rw [issuedIndices_append, issuedIndices, issuedIndices, List.filterMap_cons_none unissued]
  exact List.append_nil _

theorem read (h : Appending es db Γ) (ghost : Γ c = some w) {q : Await} {a : Answer q}
    (isRead : q.IsRead) (allowed : w.allows serde q) :
    Appending (es ++ [.performed c q a]) db (Function.update Γ c (some (w.next q a))) := by
  obtain rfl := Writer.allows_read isRead allowed
  have hnext : Writer.next .reader q a = .reader := rfl
  rw [hnext]
  refine h.idle ghost (by trivial) ?_ fun _ _ _ he => by cases he; exact isRead.elim
  rcases q with q | _
  · cases q <;> first | rfl | exact isRead.elim
  · rfl

theorem failed (h : Appending es db Γ) (ghost : Γ c = some w) (q : DbRequest) (e : String) :
    Appending (es ++ [.performed c (.run q) (.error e)]) db
      (Function.update Γ c (some (w.next (.run q) (.error e)))) := by
  have hidle : (w.next (.run q) (.error e)).Idle := by
    by_cases hw : w = .reader
    · subst hw
      trivial
    · rw [Writer.next_error hw]
      trivial
  refine h.idle ghost hidle ?_ fun _ _ _ he => by cases he
  cases q <;> rfl

theorem published (h : Appending es db Γ) {trade : Trade} {trades : List Trade}
    (ghost : Γ c = some (.publishing (trade :: trades))) (channel payload : String)
    (r : Except String Unit) :
    Appending (es ++ [.performed c (.publish channel payload) r]) db
      (Function.update Γ c
        (some (Writer.next (.publishing (trade :: trades)) (.publish channel payload) r))) := by
  have hidle : (Writer.next (.publishing (trade :: trades)) (.publish channel payload) r).Idle := by
    cases r <;> trivial
  exact h.idle ghost hidle rfl fun _ _ _ he => by cases he

theorem perform (h : Appending es db Γ) (ghost : Γ c = some w) {q : Await} {a : Answer q}
    (allowed : w.allows serde q) (effect : Effect serde checks db q a db')
    (few : checks = false → (issuedIndices es).length < 2 ^ 64 - 1) :
    Appending (es ++ [.performed c q a]) db' (Function.update Γ c (some (w.next q a))) := by
  cases effect with
  | failed q e => exact h.failed ghost q e
  | counted new advanced =>
    have hnew : new = db.total + 1 := by
      refine u64Add_exact advanced fun hchecks => ?_
      have hfew := few hchecks
      rw [← h.total_eq] at hfew
      exact Nat.add_lt_of_lt_sub hfew
    obtain ⟨row, todo, batch, rfl⟩ := Writer.allows_counter allowed
    exact h.counted ghost hnew
  | checked id =>
    obtain ⟨row, index, todo, batch, rfl, rfl⟩ := Writer.allows_check allowed
    have hunused : Unused db index := (h.fits c _ ghost).2
    have hnone : (db.tradeIds.lookup (tradeIdOf index row.price)).isSome = false := by
      rw [h.check_fresh hunused]
      rfl
    rw [hnone]
    exact h.checked ghost
  | reserved id index =>
    obtain ⟨row, todo, batch, rfl, rfl⟩ := Writer.allows_reserve allowed
    exact h.reserved ghost
  | stored batch =>
    obtain ⟨rfl, _⟩ := Writer.allows_batch allowed
    exact h.stored ghost
  | total => exact h.read ghost (by trivial) allowed
  | recent n trades => exact absurd allowed Writer.not_allows_recent
  | range startIndex limit trades => exact h.read ghost (by trivial) allowed
  | published channel payload r =>
    obtain ⟨trade, trades, rfl, _⟩ := Writer.allows_publish allowed
    exact h.published ghost channel payload r

/-- A step overwrites no entry of the two tables. -/
theorem extends_perform (h : Appending es db Γ) (ghost : Γ c = some w) {q : Await} {a : Answer q}
    (allowed : w.allows serde q) (effect : Effect serde checks db q a db') : Extends db db' := by
  cases effect with
  | reserved id index =>
    obtain ⟨row, todo, batch, rfl, rfl⟩ := Writer.allows_reserve allowed
    have hunused : Unused db index := (h.fits c _ ghost).2
    exact ⟨fun _ _ hi => hi, h.storeId_extends hunused⟩
  | stored batch =>
    obtain ⟨rfl, _⟩ := Writer.allows_batch allowed
    have hfits : Reserved db batch := h.fits c _ ghost
    refine ⟨fun i v hi => ?_, fun id i hi => ?_⟩
    · rw [trades_storeTrades_of_not_mem serde db batch ?_]
      · exact hi
      · intro hmem
        obtain ⟨entry, he, rfl⟩ := List.mem_map.mp hmem
        rw [(hfits entry he).2] at hi
        cases hi
    · rw [tradeIds_storeTrades_of_reserved serde db batch]
      · exact hi
      · exact fun entry he => (hfits entry he).1
  | counted new _ => exact .setTotal db new
  | _ => exact .refl _

theorem owned_start (task : Task) : (Writer.start serde task).owned = [] := by
  cases task <;> rfl

theorem fits_start (db : TradeDb) (task : Task) : (Writer.start serde task).Fits db := by
  cases task with
  | message text redisConnection => exact fun entry he => by cases he
  | _ => trivial

theorem forget (serde : SerdeJson) (h : Appending es db Γ) {Γ' : ℕ → Option Writer}
    (issued : issuedIndices es' = issuedIndices es)
    (unchecked : ∀ c id b,
      ClientEvent.performed c (.run (.checkIdExists id)) (.ok b) ∈ es' → b = false)
    (total : db'.total = db.total) (trades : db'.trades = db.trades)
    (tradeIds : db'.tradeIds = db.tradeIds)
    (ghosts : ∀ d v, Γ' d = some v → Γ d = some v ∨ ∃ task, v = .start serde task) :
    Appending es' db' Γ' := by
  have hfits : ∀ v : Writer, v.Fits db → v.Fits db' := fun v hv =>
    hv.frame (fun _ _ => by rw [trades]) (fun _ _ hi => tradeIds ▸ hi)
      (fun _ _ _ hi => tradeIds ▸ hi)
  have howned : ∀ d v, Γ' d = some v → Γ d = some v ∨ v.owned = [] := fun d v hd =>
    (ghosts d v hd).imp_right fun ⟨task, hv⟩ => hv ▸ owned_start task
  refine ⟨by rw [issued, h.issued, total], by rw [total, trades]; exact h.keys,
    by rw [total, tradeIds]; exact h.ids, ?_, ?_, ?_, ?_, unchecked⟩
  · intro d v hd
    rw [total]
    rcases howned d v hd with hold | hnil
    · exact h.owned_le d v hold
    · simp [hnil]
  · intro d v hd
    rcases howned d v hd with hold | hnil
    · exact h.owned_nodup d v hold
    · simp [hnil]
  · intro d d' v v' hd hd' hne
    rcases howned d v hd with hold | hnil
    · rcases howned d' v' hd' with hold' | hnil
      · exact h.disjoint d d' v v' hold hold' hne
      · simp [hnil]
    · simp [hnil]
  · intro d v hd
    rcases ghosts d v hd with hold | ⟨task, rfl⟩
    · exact hfits v (h.fits d v hold)
    · exact fits_start db' task

end Appending

section Runs

variable (serde : SerdeJson) (checks : Bool)

/-- Without overflow checks the counter must not have come round. -/
def FewIssued (es : List FeedEvent) : Prop :=
  checks = false → (issuedIndices es).length < 2 ^ 64 - 1

theorem FewIssued.of_append {checks : Bool} {xs ys : List FeedEvent}
    (h : FewIssued checks (xs ++ ys)) : FewIssued checks xs := by
  intro hchecks
  have hlen := h hchecks
  rw [issuedIndices_append, List.length_append] at hlen
  omega

theorem appending_preserved :
    (feed serde checks).Preserved (writerProtocol serde) (fun w _ => w.Ended) (Writer.start serde)
      fun es s Γ => FewIssued checks es → Appending es s.db Γ where
  obeys := task_obeys serde
  spawn i t inv _ _ few := by
    refine (inv few.of_append).forget serde (by rw [issuedIndices_append]; exact List.append_nil _)
      ((inv few.of_append).unchecked_snoc fun _ _ _ he => by cases he) rfl rfl rfl fun d v hd => ?_
    rcases Clients.update_cases hd with ⟨_, hv⟩ | ⟨_, hold⟩
    · exact Or.inr ⟨t, (Option.some.inj hv).symm⟩
    · exact Or.inl hold
  perform i w q e inv ghost allowed few :=
    (inv few.of_append).perform ghost allowed (perform_effect serde checks q e _) few.of_append
  returned i w r inv _ _ few :=
    (inv few.of_append).forget serde (by rw [issuedIndices_append]; exact List.append_nil _)
      ((inv few.of_append).unchecked_snoc fun _ _ _ he => by cases he) rfl rfl rfl
      fun _ _ hd => Or.inl (Clients.update_none_cases hd)
  drop i inv few :=
    (inv few).forget serde rfl (inv few).unchecked rfl rfl rfl
      fun _ _ hd => Or.inl (Clients.update_none_cases hd)
  restart {es s Γ} env inv few := by
    have hkept : (reboot env s).db.total = s.db.total ∧ (reboot env s).db.trades = s.db.trades ∧
        (reboot env s).db.tradeIds = s.db.tradeIds := by
      rcases reboot_cases env s with hsame | ⟨hnone, hset⟩
      · rw [hsame]
        exact ⟨rfl, rfl, rfl⟩
      · rw [hset]
        exact ⟨by simp [TradeDb.total, hnone, TradeDb.setTotal], rfl, rfl⟩
    exact (inv few).forget serde rfl (inv few).unchecked hkept.1 hkept.2.1 hkept.2.2
      fun _ _ hd => by cases hd

theorem appending_extends (base : FeedStore) :
    (feed serde checks).Preserved (writerProtocol serde) (fun w _ => w.Ended) (Writer.start serde)
      fun es s Γ => FewIssued checks es → Appending es s.db Γ ∧ Extends base.db s.db := by
  refine (appending_preserved serde checks).reaches (fun _ _ few => few.of_append)
    (r := fun s s' => Extends s.db s'.db) (fun _ _ _ h h' => h.trans h') ?_ ?_ base
  · intro es s Γ i w q env inv ghost allowed
    exact inv.extends_perform ghost allowed (perform_effect serde checks q env s)
  · intro es s Γ env _
    rcases reboot_cases env s with hsame | ⟨_, hset⟩
    · rw [show (feed serde checks).reboot env s = reboot env s from rfl, hsame]
      exact .refl _
    · rw [show (feed serde checks).reboot env s = reboot env s from rfl, hset]
      exact .setTotal _ _

end Runs

variable {serde : SerdeJson} {checks : Bool}

/-- In every run of any number of concurrent message handlers and readers, with failing
requests, dropped clients and restarts anywhere: no index is issued twice, both tables stay
below the counter, no entry is ever overwritten, and the duplicate check always says no,
because identifiers of different indices differ whatever the prices are. -/
theorem append_only {inputs₁ inputs₂ : List (ClientInput Task Env)}
    {mid final : Clients.State Await Answer Outcome FeedStore} {es₁ es₂ : List FeedEvent}
    (run₁ : (feed serde checks).machine.run (.initial .first) inputs₁ = some (mid, es₁))
    (run₂ : (feed serde checks).machine.run mid inputs₂ = some (final, es₂))
    (few : (issuedIndices (es₁ ++ es₂)).length < 2 ^ 64 - 1) :
    (issuedIndices (es₁ ++ es₂)).Nodup ∧
    (∀ i v, final.store.db.trades.lookup i = some v → i ≤ final.store.db.total) ∧
    (∀ id i, final.store.db.tradeIds.lookup id = some i → i ≤ final.store.db.total) ∧
    (∀ i v, mid.store.db.trades.lookup i = some v →
      final.store.db.trades.lookup i = some v) ∧
    (∀ id i, mid.store.db.tradeIds.lookup id = some i →
      final.store.db.tradeIds.lookup id = some i) ∧
    (∀ c id b, ClientEvent.performed c (.run (.checkIdExists id)) (.ok b) ∈ es₁ ++ es₂ →
      b = false) ∧
    ∀ (i j : ℕ) (price other : String), s!"{i}-{price}" = s!"{j}-{other}" → i = j := by
  have hfew : FewIssued checks (es₁ ++ es₂) := fun _ => few
  obtain ⟨Γ, hmid⟩ := Clients.invariant (appending_preserved serde checks)
    (fun _ => Appending.initial) run₁
  have hmid' : Clients.Ghosted (writerProtocol serde) (fun w _ => w.Ended)
      (fun es s Γ => FewIssued checks es → Appending es s.db Γ ∧ Extends mid.store.db s.db)
      es₁ mid Γ :=
    ⟨hmid.agree, hmid.fresh, fun few => ⟨hmid.inv few, .refl _⟩⟩
  obtain ⟨Γ', hfinal⟩ := hmid'.run (appending_extends serde checks mid.store) run₂
  obtain ⟨inv, hextends⟩ := hfinal.inv hfew
  refine ⟨?_, inv.keys, fun id i hi => (inv.ids id i hi).1, hextends.trades, hextends.tradeIds,
    inv.unchecked, fun i j price other h => tradeIdOf_injective h⟩
  rw [inv.issued]
  exact List.nodup_range'

def racingCounters : List (ClientInput Task Env) :=
  [.spawn (.message tradeText true), .spawn (.message tradeText false), .perform 0 .fine,
    .perform 1 .fine, .deliver 1, .deliver 0]

def racingWrites : List (ClientInput Task Env) :=
  [.perform 1 .fine, .deliver 1, .perform 0 .fine, .deliver 0, .perform 0 .fine, .deliver 0,
    .detach 1, .perform 0 .fine, .perform 1 .fine, .deliver 0, .perform 0 .fine, .deliver 0,
    .restart .fine]

theorem racing_append_only : ∃ mid es₁ final es₂,
    (feed tradeJson true).machine.run (.initial .first) racingCounters = some (mid, es₁) ∧
    (feed tradeJson true).machine.run mid racingWrites = some (final, es₂) ∧
    (issuedIndices (es₁ ++ es₂)).Nodup := by
  have hrun : ((feed tradeJson true).machine.run (.initial .first)
      (racingCounters ++ racingWrites)).map (fun p => issuedIndices p.2) = some [1, 2] := by
    decide +kernel
  obtain ⟨⟨final, es⟩, run, hissued⟩ := Option.map_eq_some_iff.mp hrun
  obtain ⟨mid, es₁, es₂, run₁, run₂, rfl⟩ := (Machine.run_append_iff _).mp run
  have h := append_only run₁ run₂ (by rw [hissued]; decide)
  exact ⟨mid, es₁, final, es₂, run₁, run₂, h.1⟩

end RustExperiments.TradeFeed
