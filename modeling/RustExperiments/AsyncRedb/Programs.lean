/- module: RustExperiments/AsyncRedb/Programs
   digest: The tasks of the trade feed and of the HTTP server behind the worker. -/

import RustExperiments.AsyncRedb.Served
import RustExperiments.AsyncRedb.Server

set_option autoImplicit false
set_option relaxedAutoImplicit false

namespace RustExperiments.AsyncRedb

open RustExperiments.Lib

section Feed

open RustExperiments.TradeFeed

variable (serde : SerdeJson) (checks : Bool)

def feedRoute : (q : Await) → Option (Route (feedHandlers serde checks) (Answer q))
  | .run q => some ⟨q, cast (congrArg (Except String) (el_responseType q))⟩
  | .publish _ _ => none

def feedPort : Port (feedHandlers serde checks) (Handlers.feedLeft serde checks)
    (feed serde checks) where
  route := feedRoute serde checks
  store db alive := ⟨db, alive⟩
  env := Env.faults
  quiet := .fine
  start e db := ((reboot e ⟨db, true⟩).db, (reboot e ⟨db, true⟩).alive)
  executed := by
    rintro (q | _) r e db a db' hroute hhandle
    · cases hroute
      exact perform_of_handle hhandle
    · cases hroute
  panicked := by
    rintro (q | _) r e db hroute hhandle
    · cases hroute
      cases q <;> exact Handlers.serve_of_panic hhandle
    · cases hroute
  dead := by
    rintro (q | _) r e db hroute
    · cases hroute
      cases q <;> rfl
    · cases hroute
  elsewhere := by
    rintro (q | _) e db alive hroute
    · cases hroute
    · rfl
  restarted := fun _ _ _ => rfl

end Feed

section Server

open RustExperiments.Sums

variable (crates : Crates) (checks : Bool)

def serverLeft : (serverHandlers crates checks).Request → (serverHandlers crates checks).Env →
    (serverHandlers crates checks).Db → (serverHandlers crates checks).Db :=
  fun q faults db => (DbRequest.handle crates checks q db faults).2.1

def serverRoute : (q : Await) → Option (Route (serverHandlers crates checks) (Answer q))
  | .run q => some ⟨q, cast (congrArg (Except String) (el_serverResponseType q))⟩
  | .now => none

def serverPort : Port (serverHandlers crates checks) (serverLeft crates checks)
    (sums crates checks) where
  route := serverRoute crates checks
  store db alive := ⟨db, alive⟩
  env := Env.faults
  quiet := .at 0
  start e db := ((reboot crates checks e ⟨db, true⟩).db, (reboot crates checks e ⟨db, true⟩).alive)
  executed := by
    rintro (q | _) r e db a db' hroute hhandle
    · cases hroute
      exact serve_of_handle hhandle
    · cases hroute
  panicked := by
    rintro (q | _) r e db hroute hhandle
    · cases hroute
      cases q <;> exact Handlers.serve_of_panic hhandle
    · cases hroute
  dead := by
    rintro (q | _) r e db hroute
    · cases hroute
      cases q <;> rfl
    · cases hroute
  elsewhere := by
    rintro (q | _) e db alive hroute
    · cases hroute
    · rfl
  restarted := fun _ _ _ => rfl

end Server

section Run

open RustExperiments.TradeFeed

def responded : ClientEvent Await Answer Outcome Task → Option (ℕ × ℕ × String)
  | .returned i (.response status body) => some (i, status, body)
  | _ => none

/-- The number of trades is asked for and told. A range that ends beyond 2^64 is read, with two more
requests for the number behind it, one in the queue and one that finds it full. -/
def rangeServed : List (ServedInput Task Env) :=
  [.spawn .tradesCount, .send 0, .receive, .handle .fine, .reply, .finish 0,
    .spawn (.trades (some (u64Size - 1)) (some 1)), .spawn .tradesCount, .spawn .tradesCount,
    .send 1, .receive, .send 2, .handle .fine, .finish 2, .send 3, .finish 1]

theorem range_served : ∃ c es inputs' s',
    ((feedPort tradeJson true).machine 1).run (.initial FeedStore.first.db) rangeServed =
      some (c, es) ∧
    es.filterMap responded = [(0, 200, "0"), (2, 500, "Error: channel closed"),
      (3, 500, "Error: channel closed"), (1, 500, "Database error: channel closed")] ∧
    (feed tradeJson true).machine.run (.initial ⟨FeedStore.first.db, true⟩) inputs' =
      some (s', es) ∧ s'.store.alive = false := by
  have hrun : (((feedPort tradeJson true).machine 1).run (.initial FeedStore.first.db)
      rangeServed).map (fun p => (p.2.filterMap responded, p.1.shared.panicked)) =
        some ([(0, 200, "0"), (2, 500, "Error: channel closed"),
          (3, 500, "Error: channel closed"), (1, 500, "Database error: channel closed")], true) := by
    decide +kernel
  obtain ⟨⟨c, es⟩, run, hvalues⟩ := Option.map_eq_some_iff.mp hrun
  obtain ⟨hresponded, hpanicked⟩ := Prod.mk.inj hvalues
  obtain ⟨inputs', s', run', hstore, _⟩ := served_by_worker run
  refine ⟨c, es, inputs', s', run, hresponded, run', ?_⟩
  rw [hstore, hpanicked, Bool.not_true, Bool.and_false]
  rfl

end Run

end RustExperiments.AsyncRedb
