/- module: RustExperiments/AsyncRedb/Feed
   digest: The requests of the trade feed as handlers of the worker. -/

import RustExperiments.AsyncRedb.Order
import RustExperiments.TradeFeed.Handler

set_option autoImplicit false
set_option relaxedAutoImplicit false

namespace RustExperiments.AsyncRedb

open RustExperiments.Lib RustExperiments.TradeFeed

inductive FeedType where
  | u64
  | trades
  | bool
  | unit
  deriving DecidableEq, Repr

abbrev FeedType.El : FeedType → Type
  | .u64 => ℕ
  | .trades => List Trade
  | .bool => Bool
  | .unit => Unit

def responseType : DbRequest → FeedType
  | .storeTradeBatch _ => .u64
  | .getTotalTradesCount => .u64
  | .getRecentTrades _ => .trades
  | .getTradesByRange _ _ => .trades
  | .getNextTradeCounter => .u64
  | .checkIdExists _ => .bool
  | .storeIdWithIndex _ _ => .unit

theorem el_responseType (q : DbRequest) : (responseType q).El = q.Response := by
  cases q <;> rfl

section Feed

variable (serde : SerdeJson) (checks : Bool)

def feedHandlers : Handlers :=
  .ofSessions TradeDb FeedType.El responseType fun q =>
    (el_responseType q).symm ▸ q.handle serde checks

variable {serde checks}

theorem perform_of_handle {q : DbRequest} {env : Env} {db db' : TradeDb}
    {a : Except String (responseType q).El}
    (handled : (feedHandlers serde checks).handle q env.faults db = some (a, db')) :
    perform serde checks (.run q) env ⟨db, true⟩ =
      (cast (by rw [el_responseType]) a, ⟨db', true⟩) := by
  cases q <;> exact Handlers.serve_of_outcome handled

end Feed

end RustExperiments.AsyncRedb
