/- module: RustExperiments/TradeFeed/Message
   digest: The messages of the exchange, the stored trades and what is taken from the JSON library. -/

import Mathlib.Data.List.Infix

set_option autoImplicit false
set_option relaxedAutoImplicit false

namespace RustExperiments.TradeFeed

/-- A cell of a trade row. The payload of an array or an object is the unit. -/
inductive JsonValue (F64 : Type) where
  | string (s : String)
  | number (n : F64)
  | bool (b : Bool)
  | null
  | array
  | object
  deriving DecidableEq, Repr

/-- `JsonValue::to_string`, over the `Display` of `f64`. -/
def JsonValue.toString {F64 : Type} (f64ToString : F64 → String) : JsonValue F64 → String
  | .string s => s
  | .number n => f64ToString n
  | .bool b => if b then "true" else "false"
  | .null => "null"
  | .array => "[array]"
  | .object => "{object}"

/-- `serde_json::Value`. -/
inductive Value (Number : Type) where
  | null
  | bool (b : Bool)
  | number (n : Number)
  | string (s : String)
  | array (items : List (Value Number))
  | object (fields : List (String × Value Number))

/-- The event messages, of which the handler only prints the payload. -/
inductive KrakenEventMessage where
  | systemStatus
  | subscriptionStatus
  | heartbeat
  | unknown
  deriving DecidableEq, Repr

inductive KrakenMessage (F64 Number : Type) where
  | tradeMessage (channelId : ℕ) (trades : List (List (JsonValue F64))) (channelName pair : String)
  | eventMessage (event : KrakenEventMessage)
  | generic (value : Value Number)

structure Trade where
  id : String
  price : String
  volume : String
  timestamp : String
  side : String
  orderType : String
  misc : String
  pair : String
  deriving DecidableEq, Repr

/-- What the feed uses of `serde_json` and of the `Display` of `f64`: the parsing of a text as
a `KrakenMessage`, and an encoding of trades that decodes to what was encoded. -/
structure SerdeJson where
  F64 : Type
  f64ToString : F64 → String
  Number : Type
  fromStr : String → Except String (KrakenMessage F64 Number)
  tradeToVec : Trade → String
  tradeFromSlice : String → Except String Trade
  tradeFromSlice_toVec : ∀ trade, tradeFromSlice (tradeToVec trade) = .ok trade
  tradeToString : Trade → String
  tradesToString : List Trade → String

end RustExperiments.TradeFeed
