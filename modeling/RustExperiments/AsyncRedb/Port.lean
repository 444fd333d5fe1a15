/- module: RustExperiments/AsyncRedb/Port
   digest: The tasks of a program, which reach the database through the calls of `run`. -/

import RustExperiments.AsyncRedb.Calls
import RustExperiments.Lib.Clients

set_option autoImplicit false
set_option relaxedAutoImplicit false

namespace RustExperiments.AsyncRedb

open RustExperiments.Lib

/-- The `to_string()` of the errors of `run`. -/
def Handlers.RunError.text : Handlers.RunError → String
  | .handler message => message
  | .typeMismatch => "type mismatch"

/-- A request that is awaited through `run`, and what the code makes of its answer. -/
structure Route (h : Handlers) (α : Type) where
  request : h.Request
  answer : Except String (h.El (h.Response request)) → α

/-- What `run` returns: the response unboxed, or the error of a channel that is closed. -/
def Route.ran {h : Handlers} {α : Type} (route : Route h α) : Option (Except String h.Any) → α
  | some result => route.answer ((h.unbox route.request result).mapError Handlers.RunError.text)
  | none => route.answer (.error "channel closed")

theorem Route.ran_box {h : Handlers} {α : Type} (route : Route h α)
    (a : Except String (h.El (h.Response route.request))) :
    route.ran (some (a.map (h.box route.request))) = route.answer a := by
  simp only [ran, Handlers.unbox_box]
  cases a <;> rfl

variable {h : Handlers} {left : (r : h.Request) → h.Env → h.Db → h.Db}
  {Q : Type} {A : Q → Type} {R T S E : Type} {sys : Clients Q A R T S E}

/-- How the tasks of a system reach the worker: which requests go through `run`, what the
database and the worker are to them, and that a performed request is its handler. -/
structure Port (h : Handlers) (left : (r : h.Request) → h.Env → h.Db → h.Db)
    (sys : Clients Q A R T S E) where
  route : (q : Q) → Option (Route h (A q))
  store : h.Db → Bool → S
  env : E → h.Env
  quiet : E
  start : E → h.Db → h.Db × Bool
  executed : ∀ {q r e db a db'}, route q = some r →
    h.handle r.request (env e) db = some (a, db') →
    sys.perform q e (store db true) = (r.answer a, store db' true)
  panicked : ∀ {q r e db}, route q = some r → h.handle r.request (env e) db = none →
    sys.perform q e (store db true) = (r.ran none, store (left r.request (env e) db) false)
  dead : ∀ {q r} e db, route q = some r →
    sys.perform q e (store db false) = (r.ran none, store db false)
  elsewhere : ∀ {q} e db alive, route q = none →
    (sys.perform q e (store db alive)).2 = store db alive
  restarted : ∀ e db alive,
    sys.reboot e (store db alive) = store (start e db).1 (start e db).2

/-- A live task: it is in a call of `run`, or it waits for something else. -/
inductive Waiter (Q : Type) (A : Q → Type) (R : Type) : Type where
  | calling (j : ℕ) (q : Q) (k : A q → Proc Q A R)
  | elsewhere (c : Client Q A R)

/-- The tasks of a program and the clones of its `AsyncRedb`. For the history, `asked` has the
task and the request of each call, and `fatal` the call whose handler panicked. -/
structure Served (h : Handlers) (Q : Type) (A : Q → Type) (R : Type) where
  shared : h.Shared
  tasks : Table ℕ (Waiter Q A R)
  next : ℕ
  asked : List (ℕ × Q)
  fatal : Option ℕ
  up : Bool

inductive ServedInput (T E : Type) where
  /-- a task begins and runs up to its first await -/
  | spawn (t : T)
  /-- the message of the call of a task goes into the queue, or the queue is closed -/
  | send (i : ℕ)
  | receive
  | handle (e : E)
  | reply
  /-- the call of a task returns -/
  | finish (i : ℕ)
  /-- what a task awaits elsewhere is performed -/
  | perform (i : ℕ) (e : E)
  /-- a task receives what it awaits elsewhere -/
  | deliver (i : ℕ)
  /-- a task is dropped -/
  | cancel (i : ℕ)
  /-- a task is dropped, and what it awaits elsewhere can still be performed -/
  | detach (i : ℕ)
  | restart (e : E)

namespace Served

variable (c : Served h Q A R)

/-- What a call will return, from its execution or from the panic in its handler on. -/
def answer (j : ℕ) : Option (Option (Except String h.Any)) :=
  match c.shared.state.result j with
  | some result => some (some result)
  | none => if c.fatal = some j then some none else none

def without (i : ℕ) : Served h Q A R := { c with tasks := c.tasks.erase i }

def initial (db : h.Db) : Served h Q A R := ⟨⟨.new db, false⟩, ∅, 0, [], none, true⟩

end Served

namespace Port

variable (port : Port h left sys) (queueSize : ℕ)

def place (c : Served h Q A R) (i : ℕ) :
    Proc Q A R → Option (Served h Q A R × List (ClientEvent Q A R T))
  | .ret r => some (c, [.returned i r])
  | .await q k =>
    match port.route q with
    | some route =>
      ((h.panicking left queueSize).step c.shared (.call route.request)).map fun p =>
        ({ c with
            shared := p.1
            tasks := c.tasks.insert i (.calling c.shared.state.next q k)
            asked := c.asked ++ [(i, q)] }, [])
    | none => some ({ c with tasks := c.tasks.insert i (.elsewhere (.pending q k)) }, [])

/-- The call of a task has returned: the task goes on. Where the worker never came to the
request, it is now that the task learns of it. -/
def resume (c : Served h Q A R) (i j : ℕ) (q : Q) (k : A q → Proc Q A R) (shared : h.Shared)
    (result : Option (Except String h.Any)) :
    Option (Served h Q A R × List (ClientEvent Q A R T)) :=
  match port.route q with
  | some route =>
    (port.place queueSize { c.without i with shared := shared } i (k (route.ran result))).map
      fun p => (p.1,
        (if (c.answer j).isSome then [] else [.performed i q (route.ran result)]) ++ p.2)
  | none => none

def serve (c : Served h Q A R) :
    ServedInput T E → Option (Served h Q A R × List (ClientEvent Q A R T))
  | .spawn t =>
    (port.place queueSize { c with next := c.next + 1 } c.next (sys.start t)).map fun p =>
      (p.1, .spawned c.next t :: p.2)
  | .send i =>
    match c.tasks.lookup i with
    | some (.calling j q k) =>
      match (h.panicking left queueSize).step c.shared (.send j) with
      | some (shared, _) =>
        if c.shared.panicked then port.resume queueSize c i j q k shared none
        else some ({ c with shared := shared }, [])
      | none => none
    | _ => none
  | .receive =>
    ((h.panicking left queueSize).step c.shared .receive).map fun p =>
      ({ c with shared := p.1 }, [])
  | .handle e =>
    match c.shared.state.worker with
    | .handling j _ =>
      match (h.panicking left queueSize).step c.shared (.handle (port.env e)), c.asked[j]? with
      | some (shared, _), some (i, q) =>
        (port.route q).map fun route =>
          ({ c with shared := shared, fatal := if shared.panicked then some j else none },
            [.performed i q (route.ran (shared.state.result j))])
      | _, _ => none
    | _ => none
  | .reply =>
    ((h.panicking left queueSize).step c.shared .reply).map fun p =>
      ({ c with shared := p.1 }, [])
  | .finish i =>
    match c.tasks.lookup i with
    | some (.calling j q k) =>
      match (h.panicking left queueSize).step c.shared (.finish j) with
      | some (shared, _) =>
        port.resume queueSize c i j q k shared (c.shared.state.responses.lookup j)
      | none => none
    | _ => none
  | .perform i e =>
    match c.tasks.lookup i with
    | some (.elsewhere (.pending q k)) =>
      let a := (sys.perform q e (port.store c.shared.state.db (!c.shared.panicked))).1
      some ({ c with tasks := c.tasks.insert i (.elsewhere (.answered (k a))) },
        [.performed i q a])
    | some (.elsewhere (.detached q)) =>
      let a := (sys.perform q e (port.store c.shared.state.db (!c.shared.panicked))).1
      some (c.without i, [.performed i q a])
    | _ => none
  | .deliver i =>
    match c.tasks.lookup i with
    | some (.elsewhere (.answered p)) => port.place queueSize (c.without i) i p
    | _ => none
  | .cancel i =>
    match c.tasks.lookup i with
    | some (.calling j _ _) =>
      ((h.panicking left queueSize).step c.shared (.cancel j)).map fun p =>
        ({ c.without i with shared := p.1 }, [])
    | some (.elsewhere (.detached _)) => none
    | some (.elsewhere _) => some (c.without i, [])
    | none => none
  | .detach i =>
    match c.tasks.lookup i with
    | some (.elsewhere (.pending q _)) =>
      some ({ c with tasks := c.tasks.insert i (.elsewhere (.detached q)) }, [])
    | _ => none
  | .restart e =>
    some (⟨⟨.new (port.start e c.shared.state.db).1, false⟩, ∅, c.next, [], none,
      (port.start e c.shared.state.db).2⟩, [])

/-- The tasks, the queue, the worker and the replies, in any interleaving. A program that did not
come up takes no step until it is started again. -/
def machine : Machine (Served h Q A R) (ServedInput T E) (ClientEvent Q A R T) where
  step c
    | .restart e => port.serve queueSize c (.restart e)
    | input => if c.up then port.serve queueSize c input else none

end Port

end RustExperiments.AsyncRedb
