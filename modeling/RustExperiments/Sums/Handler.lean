/- module: RustExperiments/Sums/Handler
   digest: The routes of the HTTP server as a system of clients of the database worker. -/

import RustExperiments.Lib.Clients
import RustExperiments.Sums.Store

set_option autoImplicit false
set_option relaxedAutoImplicit false

namespace RustExperiments.Sums

open RustExperiments.Lib

inductive Await where
  | run (q : DbRequest)
  | now
  deriving DecidableEq, Repr

/-- Errors are kept as the text of their `to_string()`. The clock reads microseconds, or it
stands before 1970. -/
abbrev Answer : Await → Type
  | .run q => Except String q.Response
  | .now => Option ℕ

inductive JsonResponse where
  | counters (counterRuns counterRequests : ℕ)
  | stringCounter (value : String)
  | journal (entries : List JournalEntry)
  deriving DecidableEq, Repr

inductive Outcome where
  | response (status : ℕ) (body : String)
  /-- what is handed to `http::json_or_html` -/
  | json (r : JsonResponse)
  | panicked
  deriving DecidableEq, Repr

/-- `a + b` with overflow checks or without them. -/
def i32Add (checks : Bool) (a b : Int32) : Option Int32 :=
  if checks && (a + b).toInt != a.toInt + b.toInt then none else some (a + b)

def defaultRequestSize : ℕ := 10

section Routes

variable (crates : Crates) (checks : Bool)

/-- The accepted request: its sum is checked, and a correct one is journaled. The result of the
journaling is not looked at. -/
def handleUnique (req : SumRequest) : Proc Await Answer Outcome :=
  match i32Add checks req.a req.b with
  | none => .ret .panicked
  | some sum =>
    if req.c = sum then
      .await .now fun
        | none => .ret .panicked
        | some micros =>
          .await (.run (.addToJournal ⟨req.id, req.a, req.b, req.c, micros % 2 ^ 64⟩)) fun _ =>
            .ret (.response 200 "OK\n")
    else .ret (.response 400 "Error: c must equal a + b.\n")

def sumsHandler (body : List UInt8) : Proc Await Answer Outcome :=
  match crates.requestFromSlice body with
  | .ok req =>
    if req.id = "" then .ret (.response 400 "Error: id cannot be empty.\n")
    else
      .await (.run (.checkAndStoreId req.id)) fun
        | .ok .unique => handleUnique checks req
        | .ok .duplicate => .ret (.response 409 "Error: Duplicate request ID.\n")
        | .error e => .ret (.response 500 e)
  | .error e => .ret (.response 400 s!"Invalid JSON: {e}.\n")

def journalHandler (n : Option ℕ) : Proc Await Answer Outcome :=
  .await (.run (.getJournal (n.getD defaultRequestSize))) fun
    | .ok entries => .ret (.json (.journal entries))
    | .error _ => .ret (.json (.journal []))

def jsonHandler (counterRuns : ℕ) : Proc Await Answer Outcome :=
  .await (.run (.incCounter .endpoint)) fun
    | .ok counterRequests => .ret (.json (.counters counterRuns counterRequests))
    | .error _ => .ret (.json (.counters counterRuns 0))

def stringHandler : Proc Await Answer Outcome :=
  .await (.run (.incString 1)) fun
    | .ok value => .ret (.json (.stringCounter value))
    | .error _ => .ret (.json (.stringCounter ""))

end Routes

/-- What neither the code nor the store determines. -/
structure Env where
  faults : Faults
  now : Option ℕ

def Env.at (micros : ℕ) : Env := ⟨[], some micros⟩

/-- A request to a route. The counter of launches is part of the state that a handler is
given. -/
inductive Task where
  | sums (body : List UInt8)
  | journal (n : Option ℕ)
  | json (counterRuns : ℕ)
  | string
  deriving DecidableEq, Repr

section Server

variable (crates : Crates) (checks : Bool)

def perform : (q : Await) → Env → Service SumsDb → Answer q × Service SumsDb
  | .run q, env, s => s.serve (q.handle crates checks) env.faults
  | .now, env, s => (env.now, s)

/-- `main` counts the launch; it goes on if that succeeds. -/
def reboot (env : Env) (s : Service SumsDb) : Service SumsDb :=
  match Service.serve (handleIncCounter crates checks .launch) env.faults ⟨s.db, true⟩ with
  | (.ok _, s) => s
  | (.error _, s) => ⟨s.db, false⟩

def Task.start : Task → Proc Await Answer Outcome
  | .sums body => sumsHandler crates checks body
  | .journal n => journalHandler n
  | .json counterRuns => jsonHandler counterRuns
  | .string => stringHandler

def sums : Clients Await Answer Outcome Task (Service SumsDb) Env where
  start := Task.start crates checks
  perform := perform crates checks
  reboot := reboot crates checks

/-- The store of a first start without a database. -/
def first : Service SumsDb := reboot crates checks (.at 0) ⟨⟨none, none, none, none, none⟩, false⟩

/-- Everything that an answer says about the tables before and after it. An error says that
nothing changed. -/
inductive Effect (db : SumsDb) : (q : Await) → Answer q → SumsDb → Prop where
  | failed (q : DbRequest) (e : String) : Effect db (.run q) (.error e) db
  | counted (counterType : CounterType) (value : ℕ) :
    Effect db (.run (.incCounter counterType)) (.ok value) (db.setCounter counterType value)
  | dotted (idx : ℕ) (value : String) :
    Effect db (.run (.incString idx)) (.ok value) (db.setString idx value)
  | duplicate (id : String) (known : db.processed id = true) :
    Effect db (.run (.checkAndStoreId id)) (.ok .duplicate) db
  | unique (id : String) (new : db.processed id = false) :
    Effect db (.run (.checkAndStoreId id)) (.ok .unique) (db.storeId id)
  | journaled (entry : JournalEntry) (next : ℕ)
      (room : ((db.sumsJournal.getD ∅).insert db.idx (crates.entryToVec entry)).keys.card ≤
        crates.capacity) (advanced : u64Add checks db.idx 1 = some next) :
    Effect db (.run (.addToJournal entry)) (.ok ()) (db.append (crates.entryToVec entry) next)
  | read (n : ℕ) (entries : List JournalEntry) : Effect db (.run (.getJournal n)) (.ok entries) db
  | now (micros : Option ℕ) : Effect db .now micros db

end Server

section Effects

open Session

variable {crates : Crates} {checks : Bool}

theorem handle_effect (q : DbRequest) {db db' : SumsDb} {r : Except Halt q.Response}
    (h : (q.handle crates checks).Ends db r db') :
    match r with
    | .ok v => Effect crates checks db (.run q) (.ok v) db'
    | .error _ => db' = db := by
  cases q with
  | incCounter counterType =>
    rcases incCounter_ends h with ⟨hdb, halt, rfl⟩ | ⟨value, _, rfl, rfl⟩
    · exact hdb
    · exact .counted counterType value
  | incString idx =>
    rcases incString_ends h with ⟨hdb, message, rfl⟩ | ⟨value, _, rfl, rfl⟩
    · exact hdb
    · exact .dotted idx value
  | checkAndStoreId id =>
    rcases checkAndStoreId_ends h with ⟨hdb, message, rfl⟩ | ⟨known, rfl, rfl⟩ | ⟨new, rfl, rfl⟩
    · exact hdb
    · exact .duplicate id known
    · exact .unique id new
  | addToJournal entry =>
    rcases addToJournal_ends h with ⟨hdb, halt, rfl⟩ | ⟨next, room, advanced, rfl, rfl⟩
    · exact hdb
    · exact .journaled entry next room advanced
  | getJournal n =>
    obtain rfl := getJournal_ends h
    cases r with
    | error halt => rfl
    | ok entries => exact .read n entries

theorem perform_effect (crates : Crates) (checks : Bool) (q : Await) (env : Env)
    (s : Service SumsDb) :
    Effect crates checks s.db q (perform crates checks q env s).1
      (perform crates checks q env s).2.db := by
  cases q with
  | now => exact .now _
  | run q =>
    have hperform : perform crates checks (.run q) env s =
      s.serve (q.handle crates checks) env.faults := rfl
    rw [hperform]
    rcases Service.serve_ends (q.handle crates checks) env.faults s with
      ⟨v, hanswer, hends⟩ | ⟨message, hanswer, hsame⟩
    · rw [hanswer]
      exact handle_effect q hends
    · rw [hanswer]
      have hdb : (s.serve (q.handle crates checks) env.faults).2.db = s.db := by
        rcases hsame with hsame | ⟨halt, hends⟩
        · rw [hsame]
        · exact handle_effect q hends
      rw [hdb]
      exact .failed q message

theorem reboot_cases (crates : Crates) (checks : Bool) (env : Env) (s : Service SumsDb) :
    (reboot crates checks env s).db = s.db ∨
      ∃ value, (reboot crates checks env s).db = s.db.setCounter .launch value := by
  have hends := Service.serve_ends (handleIncCounter crates checks .launch) env.faults ⟨s.db, true⟩
  unfold reboot
  revert hends
  rcases Service.serve (handleIncCounter crates checks .launch) env.faults ⟨s.db, true⟩ with ⟨r, s'⟩
  rintro (⟨v, rfl, hends⟩ | ⟨message, rfl, hsame⟩)
  · rcases incCounter_ends hends with ⟨_, halt, hr⟩ | ⟨value, _, _, hdb⟩
    · cases hr
    · exact Or.inr ⟨value, hdb⟩
  · refine Or.inl ?_
    rcases hsame with rfl | ⟨halt, hends⟩
    · rfl
    · rcases incCounter_ends hends with ⟨hdb, _⟩ | ⟨value, _, hr, _⟩
      · exact hdb
      · cases hr

end Effects

end RustExperiments.Sums
