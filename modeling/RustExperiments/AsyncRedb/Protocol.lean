/- module: RustExperiments/AsyncRedb/Protocol
   digest: The request queue, the database worker and the one-shot replies of the callers. -/

import RustExperiments.Lib.Machine
import RustExperiments.Lib.Session
import RustExperiments.Lib.Table

set_option autoImplicit false
set_option relaxedAutoImplicit false

namespace RustExperiments.AsyncRedb

open RustExperiments.Lib

/-- The request types of a program. `Ty` names the types that responses can have, as `TypeId`
does, and `El` gives their values. A handler returns a response or an error, or it panics,
which is `none`; `Env` holds what its storage operations do. -/
structure Handlers where
  Db : Type
  Request : Type
  Env : Type
  Ty : Type
  [typeId : DecidableEq Ty]
  El : Ty → Type
  Response : Request → Ty
  handle : (r : Request) → Env → Db → Option (Except String (El (Response r)) × Db)

namespace Handlers

attribute [instance] Handlers.typeId

variable (h : Handlers)

/-- `Box<dyn Any + Send>` -/
def Any : Type := Σ ty : h.Ty, h.El ty

/-- `Box::new(v) as Box<dyn Any + Send>` -/
def box (r : h.Request) (v : h.El (h.Response r)) : h.Any := ⟨h.Response r, v⟩

/-- The handler behind the generic trait: its response is boxed. -/
def handleGenericRequest (r : h.Request) (e : h.Env) (db : h.Db) :
    Option (Except String h.Any × h.Db) :=
  (h.handle r e db).map fun p => (p.1.map (h.box r), p.2)

/-- `boxed_result.downcast::<R::Response>()` -/
def downcast (ty : h.Ty) (boxed : h.Any) : Option (h.El ty) :=
  if same : boxed.1 = ty then some (same ▸ boxed.2) else none

inductive RunError where
  | handler (message : String)
  | typeMismatch
  deriving DecidableEq, Repr

/-- The end of `run`: the error of the handler is passed on, the response is unboxed. -/
def unbox (r : h.Request) : Except String h.Any → Except RunError (h.El (h.Response r))
  | .error message => .error (.handler message)
  | .ok boxed =>
    match h.downcast (h.Response r) boxed with
    | some v => .ok v
    | none => .error .typeMismatch

/-- A call of `run`: it waits for room in the queue, or for its response. -/
inductive Call where
  | sending (r : h.Request)
  | waiting (r : h.Request)

inductive Worker where
  | receiving
  | handling (i : ℕ) (r : h.Request)
  | replying (i : ℕ) (result : Except String h.Any)

/-- Calls are numbered as they are made. `responses` are the one-shot channels that hold a
value; a channel ends with its call. -/
structure State where
  db : h.Db
  queue : List (ℕ × h.Request)
  worker : h.Worker
  calls : Table ℕ h.Call
  responses : Table ℕ (Except String h.Any)
  next : ℕ

inductive Input where
  /-- `run` is called -/
  | call (r : h.Request)
  /-- the message of a call goes into the queue -/
  | send (i : ℕ)
  | receive
  | handle (e : h.Env)
  | reply
  /-- a call gets its response and returns -/
  | finish (i : ℕ)
  /-- a call is dropped at the await where it is -/
  | cancel (i : ℕ)

inductive Event where
  | called (i : ℕ) (r : h.Request)
  | sent (i : ℕ) (r : h.Request)
  | executed (i : ℕ) (r : h.Request) (e : h.Env)
  | returned (i : ℕ) (r : h.Request) (result : Except RunError (h.El (h.Response r)))
  | cancelled (i : ℕ)

variable {h}

/-- `response_tx.send(result)`: without a receiver the value is dropped. -/
def respond (s : h.State) (i : ℕ) (result : Except String h.Any) :
    Table ℕ (Except String h.Any) :=
  match s.calls.lookup i with
  | some (.waiting _) => s.responses.insert i result
  | _ => s.responses

variable (h)

/-- All clones of an `AsyncRedb` with a queue of the given size, in any interleaving. As long as
no handler panics, the worker keeps both channels open. -/
def machine (queueSize : ℕ) : Machine h.State h.Input h.Event where
  step s
    | .call r => some ({ s with calls := s.calls.insert s.next (.sending r), next := s.next + 1 },
        [.called s.next r])
    | .send i =>
      match s.calls.lookup i with
      | some (.sending r) =>
        if s.queue.length < queueSize then
          some ({ s with queue := s.queue ++ [(i, r)], calls := s.calls.insert i (.waiting r) },
            [.sent i r])
        else none
      | _ => none
    | .receive =>
      match s.worker, s.queue with
      | .receiving, (i, r) :: queue => some ({ s with queue := queue, worker := .handling i r }, [])
      | _, _ => none
    | .handle e =>
      match s.worker with
      | .handling i r =>
        match h.handleGenericRequest r e s.db with
        | some (result, db) =>
          some ({ s with db := db, worker := .replying i result }, [.executed i r e])
        | none => none
      | _ => none
    | .reply =>
      match s.worker with
      | .replying i result =>
        some ({ s with responses := respond s i result, worker := .receiving }, [])
      | _ => none
    | .finish i =>
      match s.calls.lookup i, s.responses.lookup i with
      | some (.waiting r), some result =>
        some ({ s with calls := s.calls.erase i, responses := s.responses.erase i },
          [.returned i r (h.unbox r result)])
      | _, _ => none
    | .cancel i =>
      match s.calls.lookup i with
      | some _ => some ({ s with calls := s.calls.erase i, responses := s.responses.erase i },
          [.cancelled i])
      | none => none

variable {h}

def State.new (db : h.Db) : h.State := ⟨db, [], .receiving, ∅, ∅, 0⟩

theorem downcast_box (r : h.Request) (v : h.El (h.Response r)) :
    h.downcast (h.Response r) (h.box r v) = some v := by
  simp [downcast, box]

theorem unbox_box (r : h.Request) (result : Except String (h.El (h.Response r))) :
    h.unbox r (result.map (h.box r)) = result.mapError .handler := by
  cases result with
  | error message => rfl
  | ok v =>
    simp only [Except.map, unbox, downcast_box]
    rfl

section Steps

variable {queueSize : ℕ}

inductive Step (queueSize : ℕ) (s : h.State) : h.Input → h.State → List h.Event → Prop where
  | call (r : h.Request) :
    Step queueSize s (.call r)
      { s with calls := s.calls.insert s.next (.sending r), next := s.next + 1 } [.called s.next r]
  | send {i : ℕ} {r : h.Request} (sending : s.calls.lookup i = some (.sending r))
      (room : s.queue.length < queueSize) :
    Step queueSize s (.send i)
      { s with queue := s.queue ++ [(i, r)], calls := s.calls.insert i (.waiting r) } [.sent i r]
  | receive {i : ℕ} {r : h.Request} {queue : List (ℕ × h.Request)} (idle : s.worker = .receiving)
      (head : s.queue = (i, r) :: queue) :
    Step queueSize s .receive { s with queue := queue, worker := .handling i r } []
  | handle {i : ℕ} {r : h.Request} {e : h.Env} {a : Except String (h.El (h.Response r))} {db : h.Db}
      (taken : s.worker = .handling i r) (handled : h.handle r e s.db = some (a, db)) :
    Step queueSize s (.handle e) { s with db := db, worker := .replying i (a.map (h.box r)) }
      [.executed i r e]
  | reply {i : ℕ} {result : Except String h.Any} (executed : s.worker = .replying i result) :
    Step queueSize s .reply { s with responses := respond s i result, worker := .receiving } []
  | finish {i : ℕ} {r : h.Request} {result : Except String h.Any}
      (waiting : s.calls.lookup i = some (.waiting r))
      (response : s.responses.lookup i = some result) :
    Step queueSize s (.finish i)
      { s with calls := s.calls.erase i, responses := s.responses.erase i }
      [.returned i r (h.unbox r result)]
  | cancel {i : ℕ} {c : h.Call} (live : s.calls.lookup i = some c) :
    Step queueSize s (.cancel i)
      { s with calls := s.calls.erase i, responses := s.responses.erase i } [.cancelled i]

theorem step_cases {s t : h.State} {input : h.Input} {o : List h.Event}
    (step : (h.machine queueSize).step s input = some (t, o)) : Step queueSize s input t o := by
  cases input with
  | call r =>
    cases step
    exact .call r
  | send i =>
    simp only [machine] at step
    split at step
    · rename_i r hcall
      split_ifs at step with hroom
      cases step
      exact .send hcall hroom
    · cases step
  | receive =>
    simp only [machine] at step
    split at step
    · rename_i i r queue hworker hqueue
      cases step
      exact .receive hworker hqueue
    · cases step
  | handle e =>
    simp only [machine] at step
    split at step
    · rename_i i r hworker
      split at step
      · rename_i result db hhandled
        cases step
        obtain ⟨⟨a, db'⟩, hhandle, heq⟩ := Option.map_eq_some_iff.mp hhandled
        cases heq
        exact .handle hworker hhandle
      · cases step
    · cases step
  | reply =>
    simp only [machine] at step
    split at step
    · rename_i i result hworker
      cases step
      exact .reply hworker
    · cases step
  | finish i =>
    simp only [machine] at step
    split at step
    · rename_i r result hcall hresponse
      cases step
      exact .finish hcall hresponse
    · cases step
  | cancel i =>
    simp only [machine] at step
    split at step
    · rename_i c hcall
      cases step
      exact .cancel hcall
    · cases step

theorem step_single (s : h.State) (input : h.Input) (t : h.State) (o : List h.Event)
    (step : (h.machine queueSize).step s input = some (t, o)) : o.length ≤ 1 := by
  cases step_cases step <;> simp

end Steps

/-- What a caller learns of the end of a session. -/
def outcome {α σ : Type} : Except Halt α × σ × Faults → Option (Except String α × σ)
  | (.ok v, s, _) => some (.ok v, s)
  | (.error (.error message), s, _) => some (.error message, s)
  | (.error .panic, _, _) => none

theorem serve_of_outcome {σ α : Type} {m : Session σ α} {faults : Faults} {db db' : σ}
    {a : Except String α} (ended : outcome (m db faults) = some (a, db')) :
    Service.serve m faults ⟨db, true⟩ = (a, ⟨db', true⟩) := by
  simp only [Service.serve, if_true]
  revert ended
  rcases m db faults with ⟨halt | v, mid, rest⟩ <;> intro ended
  · cases halt with
    | error message =>
      cases ended
      rfl
    | panic => cases ended
  · cases ended
    rfl

theorem serve_of_panic {σ α : Type} {m : Session σ α} {faults : Faults} {db : σ}
    (panics : outcome (m db faults) = none) :
    Service.serve m faults ⟨db, true⟩ = (.error "channel closed", ⟨(m db faults).2.1, false⟩) := by
  simp only [Service.serve, if_true]
  revert panics
  rcases m db faults with ⟨halt | v, mid, rest⟩ <;> intro panics
  · cases halt with
    | error message => cases panics
    | panic => rfl
  · cases panics

def ofSessions (Db : Type) {Request Ty : Type} [DecidableEq Ty] (El : Ty → Type)
    (Response : Request → Ty) (session : (r : Request) → Session Db (El (Response r))) :
    Handlers where
  Db := Db
  Request := Request
  Env := Faults
  Ty := Ty
  El := El
  Response := Response
  handle r faults db := outcome (session r db faults)

end Handlers

end RustExperiments.AsyncRedb
