/- module: RustExperiments/TradeFeed/Panics
   digest: Every index, unwrap and slice of the message handler, and the texts that make it panic. -/

import RustExperiments.TradeFeed.Handler
import RustExperiments.TradeFeed.Json

set_option autoImplicit false
set_option relaxedAutoImplicit false

namespace RustExperiments.TradeFeed

open RustExperiments.Lib RustExperiments.Lib.Proc

section Boundaries

theorem isCharBoundary_iff (cs : List Char) (n : ℕ) :
    isCharBoundary cs n = true ↔
      ∃ k, (cs.take k).foldr (fun c size => c.utf8Size + size) 0 = n := by
  induction cs generalizing n with
  | nil =>
    cases n with
    | zero => exact ⟨fun _ => ⟨0, rfl⟩, fun _ => rfl⟩
    | succ n => simp [isCharBoundary]
  | cons c cs ih =>
    cases n with
    | zero => exact ⟨fun _ => ⟨0, rfl⟩, fun _ => rfl⟩
    | succ n =>
      rw [isCharBoundary, Bool.and_eq_true, decide_eq_true_iff, ih]
      constructor
      · rintro ⟨hle, k, hk⟩
        refine ⟨k + 1, ?_⟩
        rw [List.take_succ_cons, List.foldr_cons, hk]
        omega
      · rintro ⟨k, hk⟩
        cases k with
        | zero => simp at hk
        | succ k =>
          rw [List.take_succ_cons, List.foldr_cons] at hk
          exact ⟨by omega, k, by omega⟩

end Boundaries

section Checked

/-- `xs[i]` -/
def index {α : Type} (xs : List α) (i : ℕ) : Async α :=
  match xs[i]? with
  | some x => pure x
  | none => throw .panic

/-- `x.unwrap()` -/
def unwrap {α : Type} : Option α → Async α
  | some a => pure a
  | none => throw .panic

def Value.asArray {Number : Type} : Value Number → Option (List (Value Number))
  | .array items => some items
  | _ => none

def Value.asStr {Number : Type} : Value Number → Option String
  | .string s => some s
  | _ => none

def Value.isObject {Number : Type} : Value Number → Bool
  | .object _ => true
  | _ => false

variable (serde : SerdeJson) (valueFromStr : String → Except String (Value serde.Number))

def handleRowsChecked (pair : String) : List (List (JsonValue serde.F64)) → List (Trade × ℕ) →
    Async (List (Trade × ℕ))
  | [], trades => pure trades
  | tradeData :: rows, trades =>
    if tradeData.length < 5 then handleRowsChecked pair rows trades
    else do
      let price := (← index tradeData 0).toString serde.f64ToString
      let volume := (← index tradeData 1).toString serde.f64ToString
      let timestamp := (← index tradeData 2).toString serde.f64ToString
      let side := (← index tradeData 3).toString serde.f64ToString
      let orderType := (← index tradeData 4).toString serde.f64ToString
      let misc := (tradeData[5]?.map (JsonValue.toString serde.f64ToString)).getD ""
      let index ← run .getNextTradeCounter
      let tradeId := s!"{index}-{price}"
      let idExists ← run (.checkIdExists tradeId)
      if idExists then handleRowsChecked pair rows trades
      else do
        run (.storeIdWithIndex tradeId index)
        let trade := ⟨tradeId, price, volume, timestamp, side, orderType, misc, pair⟩
        handleRowsChecked pair rows (trades ++ [(trade, index)])

def handleTradeMessageChecked (rows : List (List (JsonValue serde.F64)))
    (channelName pair : String) (redisConnection : Bool) : Async Unit :=
  if channelName = "trade" then do
    let trades ← handleRowsChecked serde pair rows []
    if trades.isEmpty then pure ()
    else do
      let _count ← run (.storeTradeBatch trades)
      if redisConnection then publishTrades serde trades else pure ()
  else pure ()

def inspectArrayChecked {Number : Type} (value : Value Number) : Async Unit := do
  let arr ← unwrap value.asArray
  if arr.length ≥ 4 then do
    if (← index arr 2).asStr.isSome then do
      let channelName ← unwrap (← index arr 2).asStr
      if channelName = "trade" then do
        if (← index arr 1).asArray.isSome then do
          let _firstItem := (← index arr 1).asArray.bind List.head?
          pure ()
        else pure ()
      else pure ()
    else pure ()
  else pure ()

def inspectUnparseable (text : String) : Async Unit :=
  match valueFromStr text with
  | .ok value =>
    if value.asArray.isSome then do
      let items ← unwrap value.asArray
      if items.length ≥ 3 then do
        let _items ← unwrap value.asArray
        pure ()
      else pure ()
    else pure ()
  | .error _ => pure ()

/-- `handle_ws_message` with every index, unwrap and slice of the source. -/
def handleWsMessageChecked (text : String) (redisConnection : Bool) : Async Unit :=
  match serde.fromStr text with
  | .ok (.tradeMessage _ rows channelName pair) =>
    handleTradeMessageChecked serde rows channelName pair redisConnection
  | .ok (.eventMessage .unknown) => logMessageFormat text
  | .ok (.eventMessage _) => pure ()
  | .ok (.generic value) =>
    if value.asArray.isSome then do
      logMessageFormat text
      inspectArrayChecked value
    else if value.isObject then logMessageFormat text
    else pure ()
  | .error e => do
    logMessageFormat text
    inspectUnparseable serde valueFromStr text
    throw (.error s!"Invalid WebSocket message format: {e}")

variable {serde}

theorem handleRowsChecked_eq (pair : String) (rows : List (List (JsonValue serde.F64)))
    (trades : List (Trade × ℕ)) :
    handleRowsChecked serde pair rows trades = handleRows serde pair rows trades := by
  induction rows generalizing trades with
  | nil => rfl
  | cons row rows ih =>
    rcases row_cases row with hshort | ⟨c0, c1, c2, c3, c4, rest, rfl⟩
    · rw [handleRowsChecked, if_pos hshort, handleRows_short pair hshort]
      exact ih trades
    have hmisc : (c0 :: c1 :: c2 :: c3 :: c4 :: rest)[5]? = rest.head? := by
      cases rest <;> rfl
    rw [handleRowsChecked, handleRows, if_neg (by simp), hmisc]
    simp only [ih]
    rfl

theorem handleTradeMessageChecked_eq (rows : List (List (JsonValue serde.F64)))
    (channelName pair : String) (redisConnection : Bool) :
    handleTradeMessageChecked serde rows channelName pair redisConnection =
      handleTradeMessage serde rows channelName pair redisConnection := by
  rw [handleTradeMessageChecked, handleTradeMessage, handleRowsChecked_eq]

/-- The second and the first element are there behind the length check, and a string is what
`is_string` found. -/
theorem inspectArrayChecked_eq {Number : Type} (arr : List (Value Number)) :
    inspectArrayChecked (.array arr) = inspectArray arr := by
  by_cases hlength : arr.length ≥ 4
  · obtain ⟨a, b, c, rest, rfl⟩ : ∃ a b c rest, arr = a :: b :: c :: rest := by
      rcases arr with _ | ⟨a, _ | ⟨b, _ | ⟨c, rest⟩⟩⟩
      · simp at hlength
      · simp at hlength
      · simp at hlength
      · exact ⟨a, b, c, rest, rfl⟩
    rw [inspectArray, if_pos hlength]
    refine (if_pos hlength).trans ?_
    cases c with
    | string channelName =>
      by_cases hchannel : channelName = "trade"
      · refine (if_pos hchannel).trans ((if_pos hchannel).trans ?_).symm
        cases b <;> rfl
      · exact (if_neg hchannel).trans (if_neg hchannel).symm
    | _ => rfl
  · rw [inspectArray, if_neg hlength]
    exact if_neg hlength

theorem inspectUnparseable_eq (valueFromStr : String → Except String (Value serde.Number))
    (text : String) : inspectUnparseable serde valueFromStr text = pure () := by
  rw [inspectUnparseable]
  cases valueFromStr text with
  | error e => rfl
  | ok value =>
    cases value with
    | array items =>
      by_cases hlength : items.length ≥ 3
      · exact if_pos hlength
      · exact if_neg hlength
    | _ => rfl

/-- Every index is in range and every unwrap is of a value: what is left is the slice. -/
theorem handleWsMessageChecked_eq (valueFromStr : String → Except String (Value serde.Number))
    (text : String) (redisConnection : Bool) :
    handleWsMessageChecked serde valueFromStr text redisConnection =
      handleWsMessage serde text redisConnection := by
  unfold handleWsMessageChecked handleWsMessage
  rcases serde.fromStr text with e | message
  · simp only [inspectUnparseable_eq]
    rfl
  cases message with
  | tradeMessage channelId rows channelName pair =>
    exact handleTradeMessageChecked_eq rows channelName pair redisConnection
  | eventMessage event => cases event <;> rfl
  | generic value =>
    cases value with
    | array arr =>
      dsimp only
      refine (if_pos rfl).trans ?_
      rw [inspectArrayChecked_eq]
    | _ => rfl

end Checked

section Safety

variable {serde : SerdeJson}

def Unharmed {α : Type} (_ : Unit) (r : Except Stop α) : Prop := r ≠ .error .panic

theorem run_unharmed {β : Type} {q : DbRequest} {f : q.Response → Async β}
    (ok : ∀ v, (f v).run.Obeys anything Unharmed ()) :
    (TradeFeed.run q >>= f).run.Obeys anything Unharmed () := by
  refine .await trivial fun answer => ?_
  cases answer with
  | ok v => exact ok v
  | error e => exact .ret fun h => by cases h

theorem pure_unharmed {α : Type} (a : α) : (pure a : Async α).run.Obeys anything Unharmed () :=
  .ret fun h => by cases h

theorem bind_unharmed {α β : Type} {m : Async α} {f : α → Async β}
    (first : m.run.Obeys anything Unharmed ()) (others : ∀ a, (f a).run.Obeys anything Unharmed ()) :
    (m >>= f).run.Obeys anything Unharmed () := by
  refine first.except_bind (fun _ a _ => others a) fun _ e h heq => ?_
  cases heq
  exact h rfl

theorem handleRows_unharmed (pair : String) (rows : List (List (JsonValue serde.F64)))
    (trades : List (Trade × ℕ)) :
    (handleRows serde pair rows trades).run.Obeys anything Unharmed () := by
  induction rows generalizing trades with
  | nil => exact pure_unharmed trades
  | cons row rows ih =>
    rcases row_cases row with hshort | ⟨c0, c1, c2, c3, c4, rest, rfl⟩
    · rw [handleRows_short pair hshort]
      exact ih trades
    refine run_unharmed fun index => run_unharmed fun idExists => ?_
    cases idExists with
    | true => exact ih trades
    | false => exact run_unharmed fun _ => ih _

theorem publish_unharmed (channel payload : String) :
    (publish channel payload).run.Obeys anything Unharmed () := by
  refine .await trivial fun answer => ?_
  cases answer with
  | ok _ => exact .ret fun h => by cases h
  | error e =>
    dsimp only
    split_ifs
    · exact .ret fun h => by cases h
    · exact .ret fun h => by cases h

theorem publishTrades_unharmed (batch : List (Trade × ℕ)) :
    (publishTrades serde batch).run.Obeys anything Unharmed () := by
  induction batch with
  | nil => exact pure_unharmed ()
  | cons entry batch ih =>
    exact bind_unharmed (publish_unharmed _ _) fun _ => ih

theorem handleTradeMessage_unharmed (rows : List (List (JsonValue serde.F64)))
    (channelName pair : String) (redisConnection : Bool) :
    (handleTradeMessage serde rows channelName pair redisConnection).run.Obeys anything Unharmed
      () := by
  unfold handleTradeMessage
  by_cases hchannel : channelName = "trade"
  · rw [if_pos hchannel]
    refine bind_unharmed (handleRows_unharmed pair rows []) fun trades => ?_
    by_cases hempty : trades.isEmpty
    · rw [if_pos hempty]
      exact pure_unharmed ()
    · rw [if_neg hempty]
      refine run_unharmed fun _ => ?_
      cases redisConnection with
      | true => exact publishTrades_unharmed trades
      | false => exact pure_unharmed ()
  · rw [if_neg hchannel]
    exact pure_unharmed ()

theorem inspectArray_unharmed {Number : Type} (arr : List (Value Number)) :
    (inspectArray arr).run.Obeys anything Unharmed () := by
  unfold inspectArray
  by_cases hlength : arr.length ≥ 4
  · rw [if_pos hlength, List.getElem?_eq_getElem (by omega)]
    cases arr[2] with
    | string channelName =>
      dsimp only
      rw [List.getElem?_eq_getElem (by omega)]
      split_ifs
      · exact pure_unharmed ()
      · exact pure_unharmed ()
    | _ => exact pure_unharmed ()
  · rw [if_neg hlength]
    exact pure_unharmed ()

/-- The texts that `log_message_format` is called with: those that are no message, and the events,
arrays and objects that the handler does not know. -/
def ReachesLog (serde : SerdeJson) (text : String) : Prop :=
  match serde.fromStr text with
  | .error _ => True
  | .ok (.eventMessage .unknown) => True
  | .ok (.generic (.array _)) => True
  | .ok (.generic (.object _)) => True
  | .ok _ => False

/-- The slice `&text[..500]` is taken, and inside a character. -/
def CutsCharacter (text : String) : Prop :=
  500 < text.utf8ByteSize ∧ isCharBoundary text.toList 500 = false

theorem logMessageFormat_cuts {text : String} (h : CutsCharacter text) :
    logMessageFormat text = throw .panic := by
  obtain ⟨hlong, hinside⟩ := h
  have hlogs : (!debugWsMessages) = false := rfl
  rw [logMessageFormat, hlogs, if_neg Bool.false_ne_true, if_pos hlong, hinside,
    if_neg Bool.false_ne_true]

theorem logMessageFormat_unharmed {text : String} (h : ¬ CutsCharacter text) :
    (logMessageFormat text).run.Obeys anything Unharmed () := by
  unfold logMessageFormat
  split_ifs with hoff hlong hboundary
  · exact pure_unharmed ()
  · exact pure_unharmed ()
  · exact absurd ⟨hlong, Bool.eq_false_iff.mpr hboundary⟩ h
  · exact pure_unharmed ()

/-- The handler is harmed by a text exactly if it logs it and the slice of the log cuts a
character. -/
theorem handleWsMessage_unharmed {text : String} (redisConnection : Bool)
    (h : ¬ (ReachesLog serde text ∧ CutsCharacter text)) :
    (handleWsMessage serde text redisConnection).run.Obeys anything Unharmed () := by
  have hlog : ReachesLog serde text → (logMessageFormat text).run.Obeys anything Unharmed () :=
    fun hlogged => logMessageFormat_unharmed fun hcuts => h ⟨hlogged, hcuts⟩
  unfold handleWsMessage
  unfold ReachesLog at hlog
  revert hlog
  rcases serde.fromStr text with e | message
  · intro hlog
    exact bind_unharmed (hlog trivial) fun _ => .ret fun heq => by cases heq
  cases message with
  | tradeMessage channelId rows channelName pair =>
    exact fun _ => handleTradeMessage_unharmed rows channelName pair redisConnection
  | eventMessage event =>
    cases event with
    | unknown => exact fun hlog => hlog trivial
    | _ => exact fun _ => pure_unharmed ()
  | generic value =>
    cases value with
    | array arr => exact fun hlog => bind_unharmed (hlog trivial) fun _ => inspectArray_unharmed arr
    | object fields => exact fun hlog => hlog trivial
    | _ => exact fun _ => pure_unharmed ()

theorem handleWsMessage_panics {text : String} (redisConnection : Bool)
    (logged : ReachesLog serde text) (cuts : CutsCharacter text) :
    (handleWsMessage serde text redisConnection).run = .ret (.error .panic) := by
  have hlog := logMessageFormat_cuts cuts
  unfold handleWsMessage
  unfold ReachesLog at logged
  revert logged
  rcases serde.fromStr text with e | message
  · intro _
    dsimp only
    rw [hlog]
    rfl
  cases message with
  | tradeMessage channelId rows channelName pair => exact fun h => h.elim
  | eventMessage event =>
    cases event with
    | unknown =>
      intro _
      dsimp only
      rw [hlog]
      rfl
    | _ => exact fun h => h.elim
  | generic value =>
    cases value with
    | array arr =>
      intro _
      dsimp only
      rw [hlog]
      rfl
    | object fields =>
      intro _
      dsimp only
      rw [hlog]
      rfl
    | _ => exact fun h => h.elim

/-- For every text, with or without a connection, and whatever the storage and the publications
answer: the handler, with every index, unwrap and slice of the source, never panics exactly if it
does not log the text, or the text has at most 500 bytes, or its first 500 bytes are whole
characters. -/
theorem never_panics_iff_not_cut (serde : SerdeJson)
    (valueFromStr : String → Except String (Value serde.Number)) (text : String)
    (redisConnection : Bool) :
    (∀ r, (handleWsMessageChecked serde valueFromStr text redisConnection).run.MayReturn r →
      r ≠ .error .panic) ↔ ¬ (ReachesLog serde text ∧ CutsCharacter text) := by
  rw [handleWsMessageChecked_eq]
  constructor
  · rintro hnever ⟨hlogged, hcuts⟩
    rw [handleWsMessage_panics redisConnection hlogged hcuts] at hnever
    exact hnever _ (.ret _) rfl
  · intro h r hr
    obtain ⟨_, hunharmed⟩ := (handleWsMessage_unharmed redisConnection h).returns hr
    exact hunharmed

def cutText : String := String.ofList ('a' :: List.replicate 250 'é')

theorem unparseable_panics {text e : String} (unparseable : serde.fromStr text = .error e)
    (cuts : CutsCharacter text) (valueFromStr : String → Except String (Value serde.Number))
    (redisConnection : Bool) :
    (handleWsMessageChecked serde valueFromStr text redisConnection).run.MayReturn
      (.error .panic) := by
  have hlogged : ReachesLog serde text := by
    rw [ReachesLog, unparseable]
    trivial
  rw [handleWsMessageChecked_eq, handleWsMessage_panics redisConnection hlogged cuts]
  exact .ret _

theorem tradeJson_unparseable {text : String} (h : text ≠ tradeText) :
    tradeJson.fromStr text = .error "expected value at line 1 column 1" := if_neg h

theorem cut_text_ne : cutText ≠ tradeText := by decide +kernel

theorem cut_text_cuts : CutsCharacter cutText := by
  have hchars : cutText.toList = 'a' :: List.replicate 250 'é' := String.toList_ofList
  refine ⟨by decide +kernel, ?_⟩
  rw [hchars]
  decide +kernel

theorem cut_text_panics :
    (handleWsMessageChecked tradeJson (fun _ => .error "expected value at line 1 column 1") cutText
      false).run.MayReturn (.error .panic) :=
  unparseable_panics (tradeJson_unparseable cut_text_ne) cut_text_cuts _ false

end Safety

end RustExperiments.TradeFeed
