/- module: RustExperiments/TradeFeed/Json
   digest: A JSON library for feeds whose messages hold strings only. -/

import RustExperiments.Lib.Json
import RustExperiments.TradeFeed.Message

set_option autoImplicit false
set_option relaxedAutoImplicit false

namespace RustExperiments.TradeFeed

open RustExperiments.Lib

def Trade.fields (trade : Trade) : List (String × Json.Scalar) :=
  [("id", .string trade.id), ("price", .string trade.price), ("volume", .string trade.volume),
    ("timestamp", .string trade.timestamp), ("side", .string trade.side),
    ("order_type", .string trade.orderType), ("misc", .string trade.misc),
    ("pair", .string trade.pair)]

def Trade.keys : List String :=
  ["id", "price", "volume", "timestamp", "side", "order_type", "misc", "pair"]

def Trade.ofScalars : List Json.Scalar → Option Trade
  | [.string id, .string price, .string volume, .string timestamp, .string side,
      .string orderType, .string misc, .string pair] =>
    some ⟨id, price, volume, timestamp, side, orderType, misc, pair⟩
  | _ => none

def Trade.toJson (trade : Trade) : String := String.ofList (Json.writeObject trade.fields)

def Trade.fromJson (text : String) : Except String Trade :=
  match (Json.readObject Trade.keys text.toList).bind Trade.ofScalars with
  | some trade => .ok trade
  | none => .error "invalid trade"

theorem Trade.fromJson_toJson (trade : Trade) : Trade.fromJson trade.toJson = .ok trade := by
  have hread : Json.readObject Trade.keys (Json.writeObject trade.fields) =
      some (trade.fields.map Prod.snd) := Json.readObject_writeObject trade.fields
  rw [Trade.fromJson, Trade.toJson, String.toList_ofList, hread]
  rfl

/-- No cell and no generic message holds a number. -/
def stringJson (fromStr : String → Except String (KrakenMessage Empty Empty)) : SerdeJson where
  F64 := Empty
  f64ToString := nofun
  Number := Empty
  fromStr := fromStr
  tradeToVec := Trade.toJson
  tradeFromSlice := Trade.fromJson
  tradeFromSlice_toVec := Trade.fromJson_toJson
  tradeToString := Trade.toJson
  tradesToString trades := "[" ++ ",".intercalate (trades.map Trade.toJson) ++ "]"

def tradeText : String :=
  "[337,[[\"5541.2\",\"0.15\",\"1534614057.3\",\"s\",\"l\",\"\"]],\"trade\",\"XBT/USD\"]"

def tradeRow : List (JsonValue Empty) :=
  [.string "5541.2", .string "0.15", .string "1534614057.3", .string "s", .string "l", .string ""]

/-- The JSON library on `tradeText`. -/
def tradeJson : SerdeJson :=
  stringJson fun text =>
    if text = tradeText then .ok (.tradeMessage 337 [tradeRow] "trade" "XBT/USD")
    else .error "expected value at line 1 column 1"

end RustExperiments.TradeFeed
