/- module: RustExperiments/AsyncRedb/Server
   digest: The requests of the HTTP server as handlers of the worker. -/

import RustExperiments.AsyncRedb.Order
import RustExperiments.Sums.Handler

set_option autoImplicit false
set_option relaxedAutoImplicit false

namespace RustExperiments.AsyncRedb

open RustExperiments.Lib RustExperiments.Sums

inductive ServerType where
  | u64
  | string
  | checkAndStoreId
  | unit
  | journal
  deriving DecidableEq, Repr

abbrev ServerType.El : ServerType → Type
  | .u64 => ℕ
  | .string => String
  | .checkAndStoreId => CheckAndStoreIdResponse
  | .unit => Unit
  | .journal => List JournalEntry

def serverResponseType : Sums.DbRequest → ServerType
  | .incCounter _ => .u64
  | .incString _ => .string
  | .checkAndStoreId _ => .checkAndStoreId
  | .addToJournal _ => .unit
  | .getJournal _ => .journal

theorem el_serverResponseType (q : Sums.DbRequest) : (serverResponseType q).El = q.Response := by
  cases q <;> rfl

section Server

variable (crates : Crates) (checks : Bool)

def serverHandlers : Handlers :=
  .ofSessions SumsDb ServerType.El serverResponseType fun q =>
    (el_serverResponseType q).symm ▸ q.handle crates checks

variable {crates checks}

theorem serve_of_handle {q : Sums.DbRequest} {faults : Faults} {db db' : SumsDb}
    {a : Except String (serverResponseType q).El}
    (handled : (serverHandlers crates checks).handle q faults db = some (a, db')) :
    Service.serve (q.handle crates checks) faults ⟨db, true⟩ =
      (cast (by rw [el_serverResponseType]) a, ⟨db', true⟩) := by
  cases q <;> exact Handlers.serve_of_outcome handled

end Server

end RustExperiments.AsyncRedb
