/- module: RustExperiments/TradeFeed/Understanding
   digest: Which trade messages are understood in every row, from their text to the tables. -/

import RustExperiments.Lib.Double
import RustExperiments.TradeFeed.Stored
import RustExperiments.TradeFeed.Untagged

set_option autoImplicit false
set_option relaxedAutoImplicit false

namespace RustExperiments.TradeFeed

open RustExperiments.Lib

/-- How the JSON library comes from a text to a message: by the value that the text writes down,
which is buffered and then tried as each variant. Numbers are literals there, with the characters
that they are `written` in. -/
structure JsonReader (serde : SerdeJson) where
  Literal : Type
  written : Literal → String
  document : String → Option (Value Literal)
  number : Literal → Option serde.Number
  asU64 : serde.Number → Option ℕ
  asF64 : serde.Number → serde.F64
  reads : ∀ {text : String} {value : Value Literal} {content : Value serde.Number},
    document text = some value → value.buffer number recursionLimit = some content →
      serde.fromStr text = KrakenMessage.deserialize asU64 asF64 content
  refuses : ∀ {text : String} {value : Value Literal},
    document text = some value → value.buffer number recursionLimit = none →
      ∃ e, serde.fromStr text = .error e

inductive Kind where
  | string | number | bool | null | array | object
  deriving DecidableEq, Repr

def Value.kind {Number : Type} : Value Number → Kind
  | .string _ => .string
  | .number _ => .number
  | .bool _ => .bool
  | .null => .null
  | .array _ => .array
  | .object _ => .object

def JsonValue.kind {F64 : Type} : JsonValue F64 → Kind
  | .string _ => .string
  | .number _ => .number
  | .bool _ => .bool
  | .null => .null
  | .array => .array
  | .object => .object

/-- `[channel, rows, "trade", pair]` -/
def tradeDocument {Literal : Type} (channel : Literal) (rows : List (List (Value Literal)))
    (pair : String) : Value Literal :=
  .array [.number channel, .array (rows.map .array), .string "trade", .string pair]

/-- These rows are stored behind whatever the tables hold: by every handling of the text that
completes, and one completes where nothing fails. -/
structure StoresRows (serde : SerdeJson) (text : String) (rows : List Row) : Prop where
  stored : ∀ (checks redisConnection : Bool) (s t : FeedStore) (answers : List (Σ q, Answer q)),
    Ground s.db → (checks = false → s.db.total + rows.length < 2 ^ 64) →
      Completes serde checks text redisConnection s t answers → AllStored serde s.db rows t.db
  completes : ∀ (checks redisConnection : Bool) (s : FeedStore), s.alive = true → Ground s.db →
    s.db.total + rows.length < 2 ^ 64 →
      ∃ t answers, Completes serde checks text redisConnection s t answers

namespace JsonReader

variable {serde : SerdeJson} (reader : JsonReader serde)

/-- What is documented of `f64` and its `Display`. -/
structure Prints where
  double : serde.F64 → Float.Model
  displays : ∀ n, Double.Display (double (reader.asF64 n))
    (serde.f64ToString (reader.asF64 n)).toList

/-- The text that a cell is to show: a string itself, and the literal of a scalar. -/
def literalText : Value reader.Literal → String
  | .string s => s
  | .number literal => reader.written literal
  | .bool b => if b then "true" else "false"
  | .null => "null"
  | .array _ => "[array]"
  | .object _ => "\x7bobject\x7d"

/-- A cell has become the variant of its own kind, with its own text. -/
structure Becomes (cell : Value reader.Literal) (value : JsonValue serde.F64) : Prop where
  kind : value.kind = cell.kind
  text : value.toString serde.f64ToString = reader.literalText cell

/-- The text is a trade message with every cell of its rows, and its rows are stored. -/
def Understood (text : String) (channelId : ℕ) (rows : List (List (Value reader.Literal)))
    (pair : String) : Prop :=
  ∃ trades, List.Forall₂ (List.Forall₂ reader.Becomes) rows trades ∧
    serde.fromStr text = .ok (.tradeMessage channelId trades "trade" pair) ∧
    StoresRows serde text (trades.filterMap (rowOf serde pair))

def isPlain : Value reader.Literal → Bool
  | .string _ => true
  | .number literal => (reader.number literal).isSome
  | .bool _ => true
  | .null => true
  | .array _ => false
  | .object _ => false

/-- A number in range is written as Rust prints the `f64` that it is read as. -/
def isPrinted (literal : reader.Literal) : Bool :=
  (reader.number literal).any fun n =>
    serde.f64ToString (reader.asF64 n) = reader.written literal

/-- A cell is a string, a number as it is printed, a boolean or a null. -/
def isShown : Value reader.Literal → Bool
  | .string _ => true
  | .number literal => reader.isPrinted literal
  | .bool _ => true
  | .null => true
  | .array _ => false
  | .object _ => false

def cell : Value reader.Literal → Option (JsonValue serde.F64)
  | .string s => some (.string s)
  | .number literal => (reader.number literal).map fun n => .number (reader.asF64 n)
  | .bool b => some (.bool b)
  | .null => some .null
  | .array _ => none
  | .object _ => none

theorem cell_isSome (value : Value reader.Literal) :
    (reader.cell value).isSome = reader.isPlain value := by
  cases value with
  | number literal =>
    rw [cell, isPlain, Option.isSome_map]
  | string s => rfl
  | bool b => rfl
  | null => rfl
  | array items => rfl
  | object fields => rfl

theorem becomes_iff {value : Value reader.Literal} {variant : JsonValue serde.F64}
    (h : reader.cell value = some variant) :
    reader.Becomes value variant ↔ reader.isShown value = true := by
  cases value with
  | number literal =>
    obtain ⟨n, hn, rfl⟩ := Option.map_eq_some_iff.mp h
    have hprinted : reader.isShown (.number literal) = true ↔
        serde.f64ToString (reader.asF64 n) = reader.written literal := by
      rw [isShown, isPrinted, hn, Option.any_some, decide_eq_true_iff]
    rw [hprinted]
    exact ⟨fun hbecomes => hbecomes.text, fun htext => ⟨rfl, htext⟩⟩
  | string s =>
    obtain rfl := Option.some.inj h
    exact iff_of_true ⟨rfl, rfl⟩ rfl
  | bool b =>
    obtain rfl := Option.some.inj h
    exact iff_of_true ⟨rfl, rfl⟩ rfl
  | null =>
    obtain rfl := Option.some.inj h
    exact iff_of_true ⟨rfl, rfl⟩ rfl
  | array items => cases h
  | object fields => cases h

theorem isPlain_of_isShown {value : Value reader.Literal} (h : reader.isShown value = true) :
    reader.isPlain value = true := by
  cases value with
  | number literal =>
    rw [isShown, isPrinted] at h
    rw [isPlain]
    cases hnumber : reader.number literal with
    | none =>
      rw [hnumber] at h
      cases h
    | some n => rfl
  | string s => rfl
  | bool b => rfl
  | null => rfl
  | array items => cases h
  | object fields => cases h

variable {reader} in
theorem Prints.plain_of_isPrinted (prints : reader.Prints) {literal : reader.Literal}
    (h : reader.isPrinted literal = true) : Double.Plain (reader.written literal).toList := by
  obtain ⟨n, _, hn⟩ := (Option.any_eq_true _ _).mp h
  rw [← of_decide_eq_true hn]
  exact (prints.displays n).plain

/-- No variant takes an array or an object, and every other cell meets its own one. -/
theorem deserialize_cell (value : Value reader.Literal) (depth : ℕ) :
    (value.buffer reader.number depth).bind (JsonValue.deserialize reader.asF64) =
      reader.cell value := by
  cases value with
  | number literal =>
    rw [Value.buffer, cell]
    cases reader.number literal with
    | none => rfl
    | some n => rfl
  | string s => rfl
  | bool b => rfl
  | null => rfl
  | array items =>
    rw [Value.buffer, cell]
    split_ifs
    · rfl
    · cases bufferItems reader.number items (depth - 1) with
      | none => rfl
      | some contents => rfl
  | object fields =>
    rw [Value.buffer, cell]
    split_ifs
    · rfl
    · cases bufferFields reader.number fields (depth - 1) with
      | none => rfl
      | some contents => rfl

theorem deserialize_array {α : Type} (item : Value serde.Number → Option α)
    (items : List (Value reader.Literal)) {depth : ℕ} (deep : 1 < depth) :
    ((Value.array items).buffer reader.number depth).bind (deserializeVec item) =
      items.mapM fun value => (value.buffer reader.number (depth - 1)).bind item := by
  rw [Value.buffer_array reader.number items deep, bufferItems_eq, ← mapM_bind_mapM]
  cases items.mapM fun value => value.buffer reader.number (depth - 1) with
  | none => rfl
  | some contents => rfl

theorem deserialize_rows (rows : List (List (Value reader.Literal))) {depth : ℕ}
    (deep : 2 < depth) :
    ((Value.array (rows.map .array)).buffer reader.number depth).bind
        (deserializeVec (deserializeVec (JsonValue.deserialize reader.asF64))) =
      rows.mapM (List.mapM reader.cell) := by
  rw [reader.deserialize_array _ _ (by omega), List.mapM_map]
  congr 1
  funext row
  rw [Function.comp_apply, reader.deserialize_array _ _ (by omega)]
  congr 1
  funext value
  exact reader.deserialize_cell value _

variable {reader} {text pair : String} {channel : reader.Literal} {channelId : ℕ}
  {rows : List (List (Value reader.Literal))}

theorem deserialize_document (rows : List (List (Value reader.Literal))) (pair : String)
    (unsigned : (reader.number channel).bind reader.asU64 = some channelId) :
    ((tradeDocument channel rows pair).buffer reader.number recursionLimit).bind
        (deserializeTradeMessage reader.asU64 reader.asF64) =
      (rows.mapM (List.mapM reader.cell)).map
        fun trades => .tradeMessage channelId trades "trade" pair := by
  obtain ⟨n, hnumber, hid⟩ := Option.bind_eq_some_iff.mp unsigned
  have hrows := reader.deserialize_rows rows (show 2 < recursionLimit - 1 by decide)
  rw [tradeDocument, Value.buffer_array _ _ (by decide), bufferItems_eq, ← hrows]
  simp only [mapM_cons_eq, List.mapM_nil, Value.buffer_number, Value.buffer_string, hnumber]
  cases (Value.array (rows.map .array)).buffer reader.number (recursionLimit - 1) with
  | none => rfl
  | some contents =>
    simp only [Option.map_some, Option.bind_some]
    exact deserializeTradeMessage_items hid contents "trade" pair

theorem fromStr_trade_iff
    (form : reader.document text = some (tradeDocument channel rows pair))
    (unsigned : (reader.number channel).bind reader.asU64 = some channelId)
    {trades : List (List (JsonValue serde.F64))} :
    serde.fromStr text = .ok (.tradeMessage channelId trades "trade" pair) ↔
      rows.mapM (List.mapM reader.cell) = some trades := by
  have hdocument := deserialize_document rows pair unsigned
  cases hbuffer : (tradeDocument channel rows pair).buffer reader.number recursionLimit with
  | none =>
    obtain ⟨e, he⟩ := reader.refuses form hbuffer
    rw [hbuffer, Option.bind_none] at hdocument
    rw [he, Option.map_eq_none_iff.mp hdocument.symm]
    exact iff_of_false nofun nofun
  | some content =>
    rw [hbuffer, Option.bind_some] at hdocument
    rw [reader.reads form hbuffer, KrakenMessage.deserialize_trade_iff, hdocument]
    constructor
    · intro h
      obtain ⟨trades', hread, hmessage⟩ := Option.map_eq_some_iff.mp h
      cases hmessage
      exact hread
    · intro hread
      rw [hread]
      rfl

end JsonReader

theorem storesRows_messageRows (serde : SerdeJson) (text : String) :
    StoresRows serde text (messageRows serde text) where
  stored _ _ _ _ _ ground few completes := completes.stored ground few
  completes checks redisConnection _ alive ground fits :=
    completes_fine checks alive ground fits redisConnection

theorem messageRows_trade {serde : SerdeJson} {text pair : String} {channelId : ℕ}
    {trades : List (List (JsonValue serde.F64))}
    (h : serde.fromStr text = .ok (.tradeMessage channelId trades "trade" pair)) :
    messageRows serde text = trades.filterMap (rowOf serde pair) := by
  rw [messageRows, h]
  exact if_pos rfl

/-- Where a cell is not read, all rows of the message are lost with it. -/
theorem messageRows_unread {serde : SerdeJson} {reader : JsonReader serde} {text pair : String}
    {channel : reader.Literal} {channelId : ℕ} {rows : List (List (Value reader.Literal))}
    (form : reader.document text = some (tradeDocument channel rows pair))
    (unsigned : (reader.number channel).bind reader.asU64 = some channelId)
    (unread : rows.mapM (List.mapM reader.cell) = none) : messageRows serde text = [] := by
  have hdocument := JsonReader.deserialize_document rows pair unsigned
  rw [unread, Option.map_none] at hdocument
  cases hbuffer : (tradeDocument channel rows pair).buffer reader.number recursionLimit with
  | none =>
    obtain ⟨e, he⟩ := reader.refuses form hbuffer
    rw [messageRows, he]
  | some content =>
    rw [hbuffer, Option.bind_some] at hdocument
    obtain ⟨message, hmessage⟩ := KrakenMessage.deserialize_ok reader.asU64 reader.asF64 content
    rw [messageRows, reader.reads form hbuffer, hmessage]
    cases message with
    | tradeMessage id trades channelName pair' =>
      rw [KrakenMessage.deserialize_trade_iff.mp hmessage] at hdocument
      cases hdocument
    | eventMessage event => rfl
    | generic value => rfl

/-- A trade message is understood in every row exactly when none of its cells is an array, an
object or a number that is not written as Rust prints it. Numbers with an exponent or with a zero
at the end of a fraction are not. -/
theorem rows_understood_iff {serde : SerdeJson} (reader : JsonReader serde)
    (prints : reader.Prints) {text pair : String} {channel : reader.Literal} {channelId : ℕ}
    {rows : List (List (Value reader.Literal))}
    (form : reader.document text = some (tradeDocument channel rows pair))
    (unsigned : (reader.number channel).bind reader.asU64 = some channelId) :
    (reader.Understood text channelId rows pair ↔
      ∀ row ∈ rows, ∀ cell ∈ row, reader.isShown cell = true) ∧
    (reader.Understood text channelId rows pair →
      ∀ row ∈ rows, ∀ literal, .number literal ∈ row →
        Double.Plain (reader.written literal).toList) := by
  have hcells : ∀ {trades}, rows.mapM (List.mapM reader.cell) = some trades →
      (List.Forall₂ (List.Forall₂ reader.Becomes) rows trades ↔
        ∀ row ∈ rows, ∀ cell ∈ row, reader.isShown cell = true) := by
    intro trades hread
    refine forall₂_mapM_iff (fun row values hrow => ?_) hread
    refine forall₂_mapM_iff (fun cell value hcell => ?_) hrow
    exact reader.becomes_iff hcell
  have hshown : reader.Understood text channelId rows pair →
      ∀ row ∈ rows, ∀ cell ∈ row, reader.isShown cell = true := by
    rintro ⟨trades, hbecomes, hmessage, _⟩
    exact (hcells ((JsonReader.fromStr_trade_iff form unsigned).mp hmessage)).mp hbecomes
  refine ⟨⟨hshown, fun hall => ?_⟩, fun hunderstood row hrow literal hliteral => ?_⟩
  · have hsome : (rows.mapM (List.mapM reader.cell)).isSome := by
      rw [mapM_isSome_iff]
      intro row hrow
      rw [mapM_isSome_iff]
      intro cell hcell
      rw [reader.cell_isSome]
      exact reader.isPlain_of_isShown (hall row hrow cell hcell)
    obtain ⟨trades, hread⟩ := Option.isSome_iff_exists.mp hsome
    have hmessage := (JsonReader.fromStr_trade_iff form unsigned).mpr hread
    refine ⟨trades, (hcells hread).mpr hall, hmessage, ?_⟩
    rw [← messageRows_trade hmessage]
    exact storesRows_messageRows serde text
  · exact prints.plain_of_isPrinted (hshown hunderstood row hrow _ hliteral)

def mixedText : String :=
  "[337,[[\"5541.2\",7,true,null,\"l\"],[\"0.15\"]],\"trade\",\"XBT/USD\"]"

def mixedRows : List (List (Value String)) :=
  [[.string "5541.2", .number "7", .bool true, .null, .string "l"], [.string "0.15"]]

def nestedText : String :=
  "[337,[[\"5541.2\",\"0.15\",\"1534614057.3\",\"s\",\"l\",\"\"],[[]]],\"trade\",\"XBT/USD\"]"

def nestedRows : List (List (Value String)) :=
  [[.string "5541.2", .string "0.15", .string "1534614057.3", .string "s", .string "l", .string ""],
    [.array []]]

def fractionText : String :=
  "[337,[[\"5541.2\",7.0,\"1534614057.3\",\"s\",\"l\"]],\"trade\",\"XBT/USD\"]"

def fractionRows : List (List (Value String)) :=
  [[.string "5541.2", .number "7.0", .string "1534614057.3", .string "s", .string "l"]]

def cellDocument (text : String) : Option (Value String) :=
  if text = mixedText then some (tradeDocument "337" mixedRows "XBT/USD")
  else if text = nestedText then some (tradeDocument "337" nestedRows "XBT/USD")
  else if text = fractionText then some (tradeDocument "337" fractionRows "XBT/USD")
  else none

def cellNumber (literal : String) : Option ℕ := [("337", 337), ("7", 7), ("7.0", 7)].lookup literal

/-- What the texts are read as, with digits for the `f64` of their cells. -/
def cellMessage : Option (Value ℕ) → Except String (KrakenMessage (Fin 10) ℕ)
  | some content => KrakenMessage.deserialize some (Fin.ofNat 10) content
  | none => .error "expected value at line 1 column 1"

def cellJson : SerdeJson where
  F64 := Fin 10
  f64ToString digit := toString digit.val
  Number := ℕ
  fromStr text :=
    cellMessage ((cellDocument text).bind fun value => value.buffer cellNumber recursionLimit)
  tradeToVec := Trade.toJson
  tradeFromSlice := Trade.fromJson
  tradeFromSlice_toVec := Trade.fromJson_toJson
  tradeToString := Trade.toJson
  tradesToString trades := "[" ++ ",".intercalate (trades.map Trade.toJson) ++ "]"

def cellReader : JsonReader cellJson where
  Literal := String
  written := id
  document := cellDocument
  number := cellNumber
  asU64 := some
  asF64 := Fin.ofNat 10
  reads {text _ _} hvalue hcontent := by
    change cellMessage ((cellDocument text).bind _) = _
    rw [hvalue]
    exact congrArg cellMessage hcontent
  refuses {text _} hvalue hnone := by
    change ∃ e, cellMessage ((cellDocument text).bind _) = .error e
    rw [hvalue]
    exact ⟨_, congrArg cellMessage hnone⟩

theorem display_digit (d : ℕ) (lt : d < 10) :
    Double.Display (if d = 0 then .ofNat 0 else Double.nearest d 1) (toString d).toList := by
  split_ifs with hzero
  · rw [hzero]
    exact .zero
  · have htext : ∀ d < 10, (toString d).toList = Double.positional d 1 := by decide
    rw [htext d lt]
    exact .positive (Double.closest_digit (Nat.pos_of_ne_zero hzero) lt).toShortest

def cellReader.prints : cellReader.Prints where
  double (digit : Fin 10) := if digit.val = 0 then .ofNat 0 else Double.nearest digit.val 1
  displays (n : ℕ) := display_digit (n % 10) (Nat.mod_lt n (by decide))

theorem mixed_rows_understood : cellReader.Understood mixedText 337 mixedRows "XBT/USD" := by
  have form : cellReader.document mixedText =
      some (tradeDocument "337" mixedRows "XBT/USD") := rfl
  have unsigned : (cellReader.number "337").bind cellReader.asU64 = some 337 := rfl
  have hall : (mixedRows.all fun row => row.all cellReader.isShown) = true := rfl
  refine (rows_understood_iff cellReader cellReader.prints form unsigned).1.mpr
    fun row hrow cell hcell => ?_
  exact List.all_eq_true.mp (List.all_eq_true.mp hall row hrow) cell hcell

/-- One array among the cells, and the whole message is generic: the other row is not stored. The
volume `7.0` is stored as `7`. -/
theorem nested_cell_loses_rows :
    cellReader.document nestedText = some (tradeDocument "337" nestedRows "XBT/USD") ∧
    (cellReader.number "337").bind cellReader.asU64 = some 337 ∧
    ¬ cellReader.Understood nestedText 337 nestedRows "XBT/USD" ∧
    (∃ value, cellJson.fromStr nestedText = .ok (.generic value)) ∧
    messageRows cellJson nestedText = [] ∧
    cellReader.document fractionText = some (tradeDocument "337" fractionRows "XBT/USD") ∧
    ¬ cellReader.Understood fractionText 337 fractionRows "XBT/USD" ∧
    (messageRows cellJson fractionText).map Row.volume = ["7"] := by
  have hgeneric : cellJson.fromStr nestedText =
      .ok (.generic (Value.deserialize ((tradeDocument (337 : ℕ) [[.string "5541.2", .string "0.15",
        .string "1534614057.3", .string "s", .string "l", .string ""], [.array []]] "XBT/USD")))) :=
    rfl
  have hfraction : cellJson.fromStr fractionText = .ok (.tradeMessage 337 [[.string "5541.2",
      .number (7 : Fin 10), .string "1534614057.3", .string "s", .string "l"]] "trade" "XBT/USD") :=
    rfl
  refine ⟨rfl, rfl, ?_, ⟨_, hgeneric⟩, ?_, rfl, ?_, ?_⟩
  · rintro ⟨trades, _, hmessage, _⟩
    rw [hgeneric] at hmessage
    cases hmessage
  · have form : cellReader.document nestedText =
        some (tradeDocument "337" nestedRows "XBT/USD") := rfl
    have unsigned : (cellReader.number "337").bind cellReader.asU64 = some 337 := rfl
    exact messageRows_unread form unsigned rfl
  · rintro ⟨trades, hcells, hmessage, _⟩
    rw [hfraction] at hmessage
    cases hmessage
    obtain ⟨hrow, _⟩ := List.forall₂_cons.mp hcells
    obtain ⟨_, hrest⟩ := List.forall₂_cons.mp hrow
    obtain ⟨hvolume, _⟩ := List.forall₂_cons.mp hrest
    exact absurd hvolume.text (by decide)
  · rw [messageRows_trade hfraction]
    rfl

end RustExperiments.TradeFeed
