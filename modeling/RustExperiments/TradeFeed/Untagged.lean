/- module: RustExperiments/TradeFeed/Untagged
   digest: How a text becomes a message: its buffered value, and the variants tried on it. -/

import RustExperiments.Lib.Variants
import RustExperiments.TradeFeed.Message

set_option autoImplicit false
set_option relaxedAutoImplicit false

namespace RustExperiments.TradeFeed

open RustExperiments.Lib

section Buffer

variable {Literal Number : Type} (number : Literal → Option Number)

/-- The nesting at which `serde_json` gives a text up. -/
def recursionLimit : ℕ := 128

mutual

/-- The buffered value of a value as written, with the depth that remains. Neither a number out
of range nor a value nested too deep is read. -/
def Value.buffer : Value Literal → ℕ → Option (Value Number)
  | .null, _ => some .null
  | .bool b, _ => some (.bool b)
  | .number literal, _ => (number literal).map .number
  | .string s, _ => some (.string s)
  | .array items, depth =>
    if depth ≤ 1 then none else (bufferItems items (depth - 1)).map .array
  | .object fields, depth =>
    if depth ≤ 1 then none else (bufferFields fields (depth - 1)).map .object

def bufferItems : List (Value Literal) → ℕ → Option (List (Value Number))
  | [], _ => some []
  | item :: items, depth =>
    (item.buffer depth).bind fun content => (bufferItems items depth).map (content :: ·)

def bufferFields : List (String × Value Literal) → ℕ → Option (List (String × Value Number))
  | [], _ => some []
  | (key, value) :: fields, depth =>
    (value.buffer depth).bind fun content =>
      (bufferFields fields depth).map ((key, content) :: ·)

end

@[simp] theorem Value.buffer_number (literal : Literal) (depth : ℕ) :
    (Value.number literal).buffer number depth = (number literal).map .number := rfl

@[simp] theorem Value.buffer_string (s : String) (depth : ℕ) :
    (Value.string s).buffer number depth = some (.string s) := rfl

theorem Value.buffer_array (items : List (Value Literal)) {depth : ℕ} (deep : 1 < depth) :
    (Value.array items).buffer number depth =
      (bufferItems number items (depth - 1)).map .array :=
  if_neg (Nat.not_le.mpr deep)

theorem bufferItems_eq (items : List (Value Literal)) (depth : ℕ) :
    bufferItems number items depth = items.mapM fun item => item.buffer number depth := by
  induction items with
  | nil => rfl
  | cons item items ih =>
    rw [bufferItems, ih, mapM_cons_eq]

end Buffer

section Primitives

variable {Number F64 α : Type} (asU64 : Number → Option ℕ) (asF64 : Number → F64)

/-- `String::deserialize` -/
def deserializeString : Value Number → Option String
  | .string s => some s
  | _ => none

/-- `u64::deserialize` -/
def deserializeU64 : Value Number → Option ℕ
  | .number n => asU64 n
  | _ => none

/-- `f64::deserialize`; every number is one. -/
def deserializeF64 : Value Number → Option F64
  | .number n => some (asF64 n)
  | _ => none

/-- `bool::deserialize` -/
def deserializeBool : Value Number → Option Bool
  | .bool b => some b
  | _ => none

/-- `<()>::deserialize` -/
def deserializeUnit : Value Number → Option Unit
  | .null => some ()
  | _ => none

/-- `Vec::deserialize` -/
def deserializeVec (item : Value Number → Option α) : Value Number → Option (List α)
  | .array items => items.mapM item
  | _ => none

/-- A derived struct: its fields in order, or each of them once by its name among others. -/
def readsStruct (fields : List (String × (Value Number → Bool))) : Value Number → Bool
  | .array items =>
    decide (items.length = fields.length) && (fields.zipWith (fun field => field.2) items).all id
  | .object entries => fields.all fun field =>
    match entries.filter fun entry => entry.1 = field.1 with
    | [entry] => field.2 entry.2
    | _ => false
  | _ => false

end Primitives

section Generic

variable {Number : Type}

/-- `BTreeMap::insert` -/
def mapInsert {α : Type} (key : String) (value : α) : List (String × α) → List (String × α)
  | [] => [(key, value)]
  | (k, v) :: entries =>
    if key = k then (key, value) :: entries
    else if key < k then (key, value) :: (k, v) :: entries
    else (k, v) :: mapInsert key value entries

mutual

/-- `serde_json::Value::deserialize`: the entries of an object become a map. -/
def Value.deserialize : Value Number → Value Number
  | .array items => .array (deserializeItems items)
  | .object entries => .object (deserializeEntries entries [])
  | .null => .null
  | .bool b => .bool b
  | .number n => .number n
  | .string s => .string s

def deserializeItems : List (Value Number) → List (Value Number)
  | [] => []
  | item :: items => item.deserialize :: deserializeItems items

def deserializeEntries : List (String × Value Number) → List (String × Value Number) →
    List (String × Value Number)
  | [], map => map
  | (key, value) :: entries, map => deserializeEntries entries (mapInsert key value.deserialize map)

end

end Generic

section Messages

variable {Number F64 : Type} (asU64 : Number → Option ℕ) (asF64 : Number → F64)

/-- `JsonValue::deserialize`. The payload of the last two variants is the unit. -/
def JsonValue.deserialize : Value Number → Option (JsonValue F64) :=
  firstVariant [
    fun content => (deserializeString content).map .string,
    fun content => (deserializeF64 asF64 content).map .number,
    fun content => (deserializeBool content).map .bool,
    fun content => (deserializeUnit content).map fun () => .null,
    fun content => (deserializeUnit content).map fun () => .array,
    fun content => (deserializeUnit content).map fun () => .object]

/-- `KrakenTradeMessage::deserialize` -/
def deserializeTradeMessage : Value Number → Option (KrakenMessage F64 Number)
  | .array [channelId, trades, channelName, pair] =>
    (deserializeU64 asU64 channelId).bind fun channelId =>
      (deserializeVec (deserializeVec (JsonValue.deserialize asF64)) trades).bind fun trades =>
        (deserializeString channelName).bind fun channelName =>
          (deserializeString pair).map fun pair => .tradeMessage channelId trades channelName pair
  | _ => none

/-- The variant that a tag names, or numbers; every other one is `Unknown`. -/
def KrakenEventMessage.ofTag : Value Number → Option KrakenEventMessage
  | .string name => some
    (if name = "systemStatus" then .systemStatus
    else if name = "subscriptionStatus" then .subscriptionStatus
    else if name = "heartbeat" then .heartbeat
    else .unknown)
  | .number n => (asU64 n).map fun
    | 0 => .systemStatus
    | 1 => .subscriptionStatus
    | 2 => .heartbeat
    | _ => .unknown
  | _ => none

def isString (content : Value Number) : Bool := (deserializeString content).isSome

def isU64 (content : Value Number) : Bool := (deserializeU64 asU64 content).isSome

def SystemStatus.fields : List (String × (Value Number → Bool)) :=
  [("event", isString), ("version", isString), ("status", isString), ("connectionID", isU64 asU64)]

def Subscription.fields : List (String × (Value Number → Bool)) := [("name", isString)]

def SubscriptionStatus.fields : List (String × (Value Number → Bool)) :=
  [("channelID", isU64 asU64), ("channelName", isString), ("event", isString), ("pair", isString),
    ("status", isString), ("subscription", readsStruct Subscription.fields)]

def KrakenEventMessage.reads : KrakenEventMessage → Value Number → Bool
  | .systemStatus, rest => readsStruct (SystemStatus.fields asU64) rest
  | .subscriptionStatus, rest => readsStruct (SubscriptionStatus.fields asU64) rest
  | _, .array items => items.isEmpty
  | _, .object _ => true
  | _, _ => false

def KrakenEventMessage.ofTagged (tag rest : Value Number) : Option KrakenEventMessage :=
  (ofTag asU64 tag).bind fun event => if event.reads asU64 rest then some event else none

/-- `KrakenEventMessage::deserialize`: the tag is the first item, or the one entry `event`; it is
not there any more when the variant is read. -/
def KrakenEventMessage.deserialize : Value Number → Option KrakenEventMessage
  | .array (tag :: items) => ofTagged asU64 tag (.array items)
  | .object entries =>
    match entries.filter fun entry => entry.1 = "event" with
    | [entry] => ofTagged asU64 entry.2 (.object (entries.filter fun entry => entry.1 ≠ "event"))
    | _ => none
  | _ => none

/-- `KrakenMessage::deserialize` -/
def KrakenMessage.deserialize (content : Value Number) : Except String (KrakenMessage F64 Number) :=
  match firstVariant [
      deserializeTradeMessage asU64 asF64,
      fun content => (KrakenEventMessage.deserialize asU64 content).map .eventMessage,
      fun content => some (.generic content.deserialize)] content with
  | some message => .ok message
  | none => .error "data did not match any variant of untagged enum KrakenMessage"

end Messages

section Readings

variable {Number F64 : Type} {asU64 : Number → Option ℕ} {asF64 : Number → F64}
  {content : Value Number}

theorem deserializeTradeMessage_items {n : Number} {channelId : ℕ} (unsigned : asU64 n = some channelId)
    (trades : Value Number) (channelName pair : String) :
    deserializeTradeMessage asU64 asF64
        (.array [.number n, trades, .string channelName, .string pair]) =
      (deserializeVec (deserializeVec (JsonValue.deserialize asF64)) trades).map
        fun trades => .tradeMessage channelId trades channelName pair := by
  rw [deserializeTradeMessage, deserializeU64, unsigned, Option.bind_some]
  cases deserializeVec (deserializeVec (JsonValue.deserialize asF64)) trades with
  | none => rfl
  | some trades => rfl

theorem KrakenMessage.deserialize_ok (asU64 : Number → Option ℕ) (asF64 : Number → F64)
    (content : Value Number) : ∃ message, deserialize asU64 asF64 content = .ok message := by
  rw [deserialize]
  split
  · rename_i message _
    exact ⟨message, rfl⟩
  · rename_i hnone
    have hgeneric := firstVariant_eq_none_iff.mp hnone _
      (List.mem_cons_of_mem _ (List.mem_cons_of_mem _ List.mem_cons_self))
    cases hgeneric

theorem KrakenMessage.deserialize_trade_iff {channelId : ℕ} {trades : List (List (JsonValue F64))}
    {channelName pair : String} :
    deserialize asU64 asF64 content = .ok (.tradeMessage channelId trades channelName pair) ↔
      deserializeTradeMessage asU64 asF64 content =
        some (.tradeMessage channelId trades channelName pair) := by
  constructor
  · intro h
    rw [deserialize] at h
    split at h
    · rename_i message hfirst
      obtain rfl := Except.ok.inj h
      obtain ⟨variant, hmem, hvariant⟩ := firstVariant_mem hfirst
      rcases List.mem_cons.mp hmem with rfl | hmem
      · exact hvariant
      rcases List.mem_cons.mp hmem with rfl | hmem
      · obtain ⟨event, _, hevent⟩ := Option.map_eq_some_iff.mp hvariant
        cases hevent
      · obtain rfl := List.mem_singleton.mp hmem
        cases hvariant
    · cases h
  · intro h
    rw [deserialize, firstVariant_of_some h]

theorem readsStruct_missing {fields : List (String × (Value Number → Bool))}
    {entries : List (String × Value Number)} {field : String × (Value Number → Bool)}
    (mem : field ∈ fields) (missing : ∀ entry ∈ entries, entry.1 ≠ field.1) :
    readsStruct fields (.object entries) = false := by
  have hnone : (entries.filter fun entry => entry.1 = field.1) = [] := by
    rw [List.filter_eq_nil_iff]
    intro entry hentry hsame
    exact missing entry hentry (of_decide_eq_true hsame)
  rw [readsStruct, List.all_eq_false]
  refine ⟨field, mem, ?_⟩
  rw [hnone]
  exact Bool.false_ne_true

/-- The tag of an object is taken out of it, so that no variant with a field of its name is ever
read from one. -/
theorem KrakenEventMessage.deserialize_object {entries : List (String × Value Number)}
    {event : KrakenEventMessage} (h : deserialize asU64 (.object entries) = some event) :
    event = .heartbeat ∨ event = .unknown := by
  have hmissing : ∀ entry ∈ entries.filter fun entry => entry.1 ≠ "event", entry.1 ≠ "event" :=
    fun entry hentry => of_decide_eq_true (List.mem_filter.mp hentry).2
  have hread : ∀ tag, ofTagged asU64 tag (.object (entries.filter fun entry => entry.1 ≠ "event")) =
      some event → event = .heartbeat ∨ event = .unknown := by
    intro tag htag
    obtain ⟨event', _, hreads⟩ := Option.bind_eq_some_iff.mp htag
    split_ifs at hreads with hrest
    obtain rfl := Option.some.inj hreads
    cases event' with
    | systemStatus =>
      have hfield : ("event", isString) ∈ SystemStatus.fields asU64 := List.mem_cons_self
      rw [reads, readsStruct_missing hfield hmissing] at hrest
      cases hrest
    | subscriptionStatus =>
      have hfield : ("event", isString) ∈ SubscriptionStatus.fields asU64 :=
        List.mem_cons_of_mem _ (List.mem_cons_of_mem _ List.mem_cons_self)
      rw [reads, readsStruct_missing hfield hmissing] at hrest
      cases hrest
    | heartbeat => exact Or.inl rfl
    | unknown => exact Or.inr rfl
  rw [deserialize] at h
  split at h
  · exact hread _ h
  · cases h

end Readings

end RustExperiments.TradeFeed
