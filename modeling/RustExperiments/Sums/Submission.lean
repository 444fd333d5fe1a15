/- module: RustExperiments/Sums/Submission
   digest: The protocol that the handler of a POSTed sum keeps with the worker. -/

import RustExperiments.Lib.History
import RustExperiments.Sums.Handler

set_option autoImplicit false
set_option relaxedAutoImplicit false

namespace RustExperiments.Sums

open RustExperiments.Lib RustExperiments.Lib.Proc

def SumRequest.entry (req : SumRequest) (micros : ℕ) : JournalEntry :=
  ⟨req.id, req.a, req.b, req.c, micros % 2 ^ 64⟩

/-- How far a task has come. -/
inductive Submission where
  | checking (req : SumRequest)
  | accepted (req : SumRequest)
  | journaling (req : SumRequest) (micros : ℕ)
  | ended (o : Outcome)
  | reader

def Await.IsRead : Await → Prop
  | .run (.getJournal _) => True
  | .run (.incCounter _) => True
  | .run (.incString _) => True
  | _ => False

def Outcome.duplicate : Outcome := .response 409 "Error: Duplicate request ID.\n"

section Protocol

variable (crates : Crates) (checks : Bool)

/-- Where a request goes on that received `Unique`. -/
def Submission.afterUnique (req : SumRequest) : Submission :=
  match i32Add checks req.a req.b with
  | none => .ended .panicked
  | some sum =>
    if req.c = sum then .accepted req else .ended (.response 400 "Error: c must equal a + b.\n")

def Submission.allows : Submission → Await → Prop
  | .checking req, q => q = .run (.checkAndStoreId req.id)
  | .accepted _, q => q = .now
  | .journaling req micros, q => q = .run (.addToJournal (req.entry micros))
  | .ended _, _ => False
  | .reader, q => q.IsRead

def Submission.next : Submission → (q : Await) → Answer q → Submission
  | .checking req, .run (.checkAndStoreId _), .ok .unique => .afterUnique checks req
  | .checking _, .run (.checkAndStoreId _), .ok .duplicate => .ended .duplicate
  | .checking _, .run (.checkAndStoreId _), .error e => .ended (.response 500 e)
  | .accepted _, .now, none => .ended .panicked
  | .accepted req, .now, some micros => .journaling req micros
  | .journaling _ _, _, _ => .ended (.response 200 "OK\n")
  | g, _, _ => g

def sumsProtocol : Protocol Await Answer Submission where
  allows := Submission.allows
  next := Submission.next checks

/-- What a task may return where it ended. -/
def Submission.Returns : Submission → Outcome → Prop
  | .ended o, o' => o' = o
  | .reader, _ => True
  | _, _ => False

def Submission.start : Task → Submission
  | .sums body =>
    match crates.requestFromSlice body with
    | .ok req =>
      if req.id = "" then .ended (.response 400 "Error: id cannot be empty.\n") else .checking req
    | .error e => .ended (.response 400 s!"Invalid JSON: {e}.\n")
  | _ => .reader

def Submission.request : Submission → Option SumRequest
  | .checking req => some req
  | .accepted req => some req
  | .journaling req _ => some req
  | _ => none

def Submission.unjournaled : Submission → Option SumRequest
  | .accepted req => some req
  | .journaling req _ => some req
  | _ => none

end Protocol

variable {crates : Crates} {checks : Bool}

theorem Submission.afterUnique_cases (checks : Bool) (req : SumRequest) :
    Submission.afterUnique checks req = .accepted req ∨
      ∃ o, Submission.afterUnique checks req = .ended o := by
  unfold Submission.afterUnique
  split
  · exact Or.inr ⟨_, rfl⟩
  · split_ifs
    · exact Or.inl rfl
    · exact Or.inr ⟨_, rfl⟩

theorem Submission.afterUnique_request {req req' : SumRequest}
    (h : (Submission.afterUnique checks req).request = some req') : req' = req := by
  rcases Submission.afterUnique_cases checks req with hafter | ⟨o, hafter⟩
  · rw [hafter] at h
    exact (Option.some.inj h).symm
  · rw [hafter] at h
    cases h

theorem Submission.afterUnique_unjournaled {req req' : SumRequest}
    (h : (Submission.afterUnique checks req).unjournaled = some req') : req' = req := by
  rcases Submission.afterUnique_cases checks req with hafter | ⟨o, hafter⟩
  · rw [hafter] at h
    exact (Option.some.inj h).symm
  · rw [hafter] at h
    cases h

theorem start_request {task : Task} {req : SumRequest}
    (h : (Submission.start crates task).request = some req) :
    ∃ body, task = .sums body ∧ crates.requestFromSlice body = .ok req ∧ req.id ≠ "" := by
  cases task with
  | sums body =>
    simp only [Submission.start] at h
    split at h
    · rename_i req' hparsed
      split_ifs at h with hempty
      · cases h
      · cases h
        exact ⟨body, rfl, hparsed, hempty⟩
    · cases h
  | _ => cases h

theorem start_unjournaled (task : Task) : (Submission.start crates task).unjournaled = none := by
  cases task with
  | sums body =>
    simp only [Submission.start]
    split
    · split_ifs <;> rfl
    · rfl
  | _ => rfl

section Inversion

variable {g : Submission}

theorem allows_check {id : String} (h : g.allows (.run (.checkAndStoreId id))) :
    ∃ req, g = .checking req ∧ id = req.id := by
  cases g with
  | checking req =>
    cases h
    exact ⟨req, rfl, rfl⟩
  | _ => cases h

theorem allows_append {entry : JournalEntry} (h : g.allows (.run (.addToJournal entry))) :
    ∃ req micros, g = .journaling req micros ∧ entry = req.entry micros := by
  cases g with
  | journaling req micros =>
    cases h
    exact ⟨req, micros, rfl, rfl⟩
  | _ => cases h

theorem allows_now (h : g.allows .now) : ∃ req, g = .accepted req := by
  cases g with
  | accepted req => exact ⟨req, rfl⟩
  | _ => cases h

theorem allows_read {q : Await} (isRead : q.IsRead) (h : g.allows q) : g = .reader := by
  cases g with
  | reader => rfl
  | ended o => cases h
  | _ =>
    obtain rfl := h
    cases isRead

theorem next_error (checks : Bool) {q : DbRequest} (allowed : g.allows (.run q)) (e : String) :
    g = .reader ∧ g.next checks (.run q) (.error e) = .reader ∨
      ∃ o, g.next checks (.run q) (.error e) = .ended o := by
  cases g with
  | checking req =>
    cases allowed
    exact Or.inr ⟨_, rfl⟩
  | accepted req => cases allowed
  | journaling req micros =>
    cases allowed
    exact Or.inr ⟨_, rfl⟩
  | ended o => cases allowed
  | reader => exact Or.inl ⟨rfl, rfl⟩

end Inversion

section Obeys

theorem handleUnique_obeys (req : SumRequest) :
    (handleUnique checks req).Obeys (sumsProtocol checks) Submission.Returns
      (.afterUnique checks req) := by
  unfold handleUnique Submission.afterUnique
  cases i32Add checks req.a req.b with
  | none => exact .ret rfl
  | some sum =>
    dsimp only
    split_ifs
    · refine .await rfl fun micros => ?_
      cases micros with
      | none => exact .ret rfl
      | some micros => exact .await rfl fun _ => .ret rfl
    · exact .ret rfl

theorem sumsHandler_obeys (body : List UInt8) :
    (sumsHandler crates checks body).Obeys (sumsProtocol checks) Submission.Returns
      (.start crates (.sums body)) := by
  simp only [sumsHandler, Submission.start]
  cases crates.requestFromSlice body with
  | error e => exact .ret rfl
  | ok req =>
    dsimp only
    split_ifs
    · exact .ret rfl
    · refine .await rfl fun answer => ?_
      rcases answer with e | response
      · exact .ret rfl
      · cases response with
        | unique => exact handleUnique_obeys req
        | duplicate => exact .ret rfl

theorem task_obeys (crates : Crates) (checks : Bool) (task : Task) :
    (task.start crates checks).Obeys (sumsProtocol checks) Submission.Returns
      (.start crates task) := by
  cases task with
  | sums body => exact sumsHandler_obeys body
  | journal n =>
    refine .await trivial fun answer => ?_
    cases answer <;> exact .ret trivial
  | json counterRuns =>
    refine .await trivial fun answer => ?_
    cases answer <;> exact .ret trivial
  | string =>
    refine .await trivial fun answer => ?_
    cases answer <;> exact .ret trivial

end Obeys

end RustExperiments.Sums
