/- module: RustExperiments/Lib/Session
   digest: Storage sessions whose operations can fail, over a store that only commits change. -/

import Mathlib.Data.Nat.Notation
import Mathlib.Tactic.Basic

set_option autoImplicit false
set_option relaxedAutoImplicit false

namespace RustExperiments.Lib

/-- Why a session stopped short: a storage operation returned an error, or the code panicked. -/
inductive Halt where
  | error (message : String)
  | panic
  deriving DecidableEq, Repr

/-- The outcomes of the storage operations in order; those beyond the list succeed. -/
abbrev Faults := List (Option String)

/-- A computation over a committed store. What a session does to its own copy of the tables
reaches the store by `commit` alone, so that a session that stops short has no further effect. -/
def Session (σ α : Type) : Type := σ → Faults → Except Halt α × σ × Faults

namespace Session

variable {σ α β : Type}

instance : Monad (Session σ) where
  pure a s faults := (.ok a, s, faults)
  bind m f s faults :=
    match m s faults with
    | (.ok a, s, faults) => f a s faults
    | (.error halt, s, faults) => (.error halt, s, faults)

/-- One storage operation, with no effect of its own. -/
def op : Session σ Unit := fun s faults =>
  match faults with
  | [] => (.ok (), s, [])
  | none :: faults => (.ok (), s, faults)
  | some message :: faults => (.error (.error message), s, faults)

/-- Begin a transaction: its own copy of the committed store. -/
def begin : Session σ σ := do
  op
  fun s faults => (.ok s, s, faults)

/-- Commit the copy. -/
def commit (copy : σ) : Session σ Unit := do
  op
  fun _ faults => (.ok (), copy, faults)

/-- Machine arithmetic inside a session. -/
def checked : Option α → Session σ α
  | some a => pure a
  | none => fun s faults => (.error .panic, s, faults)

def fail (message : String) : Session σ α := fun s faults => (.error (.error message), s, faults)

def Ends (m : Session σ α) (s : σ) (r : Except Halt α) (s' : σ) : Prop :=
  ∃ faults rest, m s faults = (r, s', rest)

/-- A storage operation failed, and the store is as it was. -/
def Fails (s : σ) (r : Except Halt α) (s' : σ) : Prop :=
  s' = s ∧ ∃ message, r = .error (.error message)

theorem ends_run (m : Session σ α) (s : σ) (faults : Faults) :
    m.Ends s (m s faults).1 (m s faults).2.1 :=
  ⟨faults, _, rfl⟩

theorem ends_pure {a : α} {s s' : σ} {r : Except Halt α}
    (h : Ends (pure a : Session σ α) s r s') : r = .ok a ∧ s' = s := by
  obtain ⟨faults, rest, heq⟩ := h
  cases heq
  exact ⟨rfl, rfl⟩

/-- What follows a session sees its result and the store that it left. -/
theorem ends_bind {m : Session σ α} {f : α → Session σ β} {s s' : σ} {r : Except Halt β}
    (h : Ends (m >>= f) s r s') :
    (∃ halt, r = .error halt ∧ m.Ends s (.error halt) s') ∨
      ∃ a mid, m.Ends s (.ok a) mid ∧ (f a).Ends mid r s' := by
  obtain ⟨faults, rest, heq⟩ := h
  rcases hm : m s faults with ⟨ra, mid, faults'⟩
  have hbind : (m >>= f) s faults = match (ra, mid, faults') with
      | (.ok a, s, faults) => f a s faults
      | (.error halt, s, faults) => (.error halt, s, faults) := by
    rw [← hm]
    rfl
  rw [hbind] at heq
  cases ra with
  | error halt =>
    cases heq
    exact Or.inl ⟨halt, rfl, faults, _, hm⟩
  | ok a => exact Or.inr ⟨a, mid, ⟨faults, _, hm⟩, faults', rest, heq⟩

theorem begin_bind_congr {f g : σ → Session σ β} {s : σ} (h : ∀ faults, f s s faults = g s s faults)
    (faults : Faults) : (begin >>= f) s faults = (begin >>= g) s faults := by
  cases faults with
  | nil => exact h []
  | cons fault faults =>
    cases fault with
    | none => exact h faults
    | some message => rfl

theorem op_bind_congr {f g : Unit → Session σ β} {s : σ}
    (h : ∀ faults, f () s faults = g () s faults) (faults : Faults) :
    (op >>= f) s faults = (op >>= g) s faults := by
  cases faults with
  | nil => exact h []
  | cons fault faults =>
    cases fault with
    | none => exact h faults
    | some message => rfl

theorem ends_op {s s' : σ} {r : Except Halt Unit} (h : Ends op s r s') :
    Fails s r s' ∨ r = .ok () ∧ s' = s := by
  obtain ⟨faults, rest, heq⟩ := h
  cases faults with
  | nil =>
    cases heq
    exact Or.inr ⟨rfl, rfl⟩
  | cons fault faults =>
    cases fault with
    | none =>
      cases heq
      exact Or.inr ⟨rfl, rfl⟩
    | some message =>
      cases heq
      exact Or.inl ⟨rfl, message, rfl⟩

theorem ends_checked {x : Option α} {s s' : σ} {r : Except Halt α} (h : Ends (checked x) s r s') :
    s' = s ∧ (x = none ∧ r = .error .panic ∨ ∃ a, x = some a ∧ r = .ok a) := by
  cases x with
  | none =>
    obtain ⟨faults, rest, heq⟩ := h
    cases heq
    exact ⟨rfl, Or.inl ⟨rfl, rfl⟩⟩
  | some a =>
    obtain ⟨rfl, rfl⟩ := ends_pure h
    exact ⟨rfl, Or.inr ⟨a, rfl, rfl⟩⟩

theorem ends_fail {message : String} {s s' : σ} {r : Except Halt α}
    (h : Ends (fail message : Session σ α) s r s') : Fails s r s' := by
  obtain ⟨faults, rest, heq⟩ := h
  cases heq
  exact ⟨rfl, message, rfl⟩

theorem ends_op_bind {f : Unit → Session σ β} {s s' : σ} {r : Except Halt β}
    (h : Ends (op >>= f) s r s') : Fails s r s' ∨ (f ()).Ends s r s' := by
  rcases ends_bind h with ⟨halt, rfl, hop⟩ | ⟨a, mid, hop, hf⟩
  · rcases ends_op hop with ⟨rfl, message, hr⟩ | ⟨hr, _⟩
    · cases hr
      exact Or.inl ⟨rfl, message, rfl⟩
    · cases hr
  · rcases ends_op hop with ⟨_, message, hr⟩ | ⟨_, rfl⟩
    · cases hr
    · exact Or.inr hf

theorem ends_begin_bind {f : σ → Session σ β} {s s' : σ} {r : Except Halt β}
    (h : Ends (begin >>= f) s r s') : Fails s r s' ∨ (f s).Ends s r s' := by
  rcases ends_bind h with ⟨halt, rfl, hbegin⟩ | ⟨a, mid, hbegin, hf⟩
  · rcases ends_op_bind hbegin with ⟨rfl, message, hr⟩ | ⟨faults, rest, heq⟩
    · cases hr
      exact Or.inl ⟨rfl, message, rfl⟩
    · cases heq
  · rcases ends_op_bind hbegin with ⟨_, message, hr⟩ | ⟨faults, rest, heq⟩
    · cases hr
    · cases heq
      exact Or.inr hf

theorem ends_commit {copy : σ} {s s' : σ} {r : Except Halt Unit} (h : Ends (commit copy) s r s') :
    Fails s r s' ∨ r = .ok () ∧ s' = copy := by
  rcases ends_op_bind h with hfails | ⟨faults, rest, heq⟩
  · exact Or.inl hfails
  · cases heq
    exact Or.inr ⟨rfl, rfl⟩

theorem ends_commit_bind {copy : σ} {f : Unit → Session σ β} {s s' : σ} {r : Except Halt β}
    (h : Ends (commit copy >>= f) s r s') : Fails s r s' ∨ (f ()).Ends copy r s' := by
  rcases ends_bind h with ⟨halt, rfl, hcommit⟩ | ⟨a, mid, hcommit, hf⟩
  · rcases ends_commit hcommit with ⟨rfl, message, hr⟩ | ⟨hr, _⟩
    · cases hr
      exact Or.inl ⟨rfl, message, rfl⟩
    · cases hr
  · rcases ends_commit hcommit with ⟨_, message, hr⟩ | ⟨_, rfl⟩
    · cases hr
    · exact Or.inr hf

theorem ends_checked_bind {x : Option α} {f : α → Session σ β} {s s' : σ} {r : Except Halt β}
    (h : Ends (checked x >>= f) s r s') :
    (s' = s ∧ x = none ∧ r = .error .panic) ∨ ∃ a, x = some a ∧ (f a).Ends s r s' := by
  rcases ends_bind h with ⟨halt, rfl, hx⟩ | ⟨a, mid, hx, hf⟩
  · obtain ⟨rfl, ⟨hnone, hr⟩ | ⟨a, _, hr⟩⟩ := ends_checked hx
    · cases hr
      exact Or.inl ⟨rfl, hnone, rfl⟩
    · cases hr
  · obtain ⟨rfl, ⟨_, hr⟩ | ⟨b, hb, hr⟩⟩ := ends_checked hx
    · cases hr
    · cases hr
      exact Or.inr ⟨a, hb, hf⟩

section Operations

def Quiet (faults : Faults) : Prop := ∀ fault ∈ faults, fault = none

theorem Quiet.take {faults : Faults} (h : Quiet faults) (n : ℕ) : Quiet (faults.take n) :=
  fun fault hfault => h fault (List.mem_of_mem_take hfault)

theorem quiet_take_add {faults : Faults} {n k : ℕ} :
    Quiet (faults.take (n + k)) ↔ Quiet (faults.take n) ∧ Quiet ((faults.drop n).take k) := by
  simp only [Quiet, List.take_add, List.mem_append]
  exact ⟨fun h => ⟨fun f hf => h f (Or.inl hf), fun f hf => h f (Or.inr hf)⟩,
    fun h f hf => hf.elim (h.1 f) (h.2 f)⟩

/-- The session makes this many operations. If none of them fails it ends with a result and a
store, otherwise with the error of one and the store that it found. -/
def Makes (n : ℕ) (m : Session σ α) (s : σ) (a : α) (s' : σ) : Prop :=
  ∀ faults, (Quiet (faults.take n) → m s faults = (.ok a, s', faults.drop n)) ∧
    (¬ Quiet (faults.take n) → ∃ message rest, m s faults = (.error (.error message), s, rest))

theorem ends_of_makes {n : ℕ} {m : Session σ α} {s s' t : σ} {a : α} {r : Except Halt α}
    (h : Makes n m s a s') (ends : m.Ends s r t) : Fails s r t ∨ r = .ok a ∧ t = s' := by
  obtain ⟨faults, rest, heq⟩ := ends
  by_cases hquiet : Quiet (faults.take n)
  · rw [(h faults).1 hquiet] at heq
    cases heq
    exact Or.inr ⟨rfl, rfl⟩
  · obtain ⟨message, rest', hm⟩ := (h faults).2 hquiet
    rw [hm] at heq
    cases heq
    exact Or.inl ⟨rfl, message, rfl⟩

theorem makes_nothing {m : Session σ α} {s s' : σ} {a : α}
    (h : ∀ faults, m s faults = (.ok a, s', faults)) : Makes 0 m s a s' :=
  fun faults => ⟨fun _ => h faults, fun hfault => absurd (fun _ hf => by cases hf) hfault⟩

theorem makes_pure (a : α) (s : σ) : Makes 0 (pure a : Session σ α) s a s :=
  makes_nothing fun _ => rfl

theorem makes_checked (a : α) (s : σ) : Makes 0 (checked (some a)) s a s :=
  makes_nothing fun _ => rfl

theorem makes_op (s : σ) : Makes 1 op s () s := by
  intro faults
  rcases faults with _ | ⟨_ | message, faults⟩
  · exact ⟨fun _ => rfl, fun h => absurd (fun _ hf => by cases hf) h⟩
  · exact ⟨fun _ => rfl, fun h => absurd (fun _ hf => List.mem_singleton.mp hf) h⟩
  · refine ⟨fun h => ?_, fun _ => ⟨message, faults, rfl⟩⟩
    cases h (some message) List.mem_cons_self

theorem makes_bind {n k : ℕ} {m : Session σ α} {f : α → Session σ β} {s s' : σ} {a : α} {b : β}
    (first : Makes n m s a s) (others : Makes k (f a) s b s') :
    Makes (n + k) (m >>= f) s b s' := by
  intro faults
  have hbind : (m >>= f) s faults = match m s faults with
      | (.ok a, s, faults) => f a s faults
      | (.error halt, s, faults) => (.error halt, s, faults) := rfl
  rw [quiet_take_add, hbind]
  by_cases hfirst : Quiet (faults.take n)
  · rw [(first faults).1 hfirst]
    refine ⟨fun h => ?_, fun h => (others (faults.drop n)).2 fun hk => h ⟨hfirst, hk⟩⟩
    rw [← List.drop_drop]
    exact (others (faults.drop n)).1 h.2
  · refine ⟨fun h => absurd h.1 hfirst, fun _ => ?_⟩
    obtain ⟨message, rest, hm⟩ := (first faults).2 hfirst
    exact ⟨message, rest, by rw [hm]⟩

theorem makes_bind_pure {n : ℕ} {m : Session σ α} {s s' : σ} {a : α} {b : β}
    (h : Makes n m s a s') : Makes n (m >>= fun _ => pure b) s b s' := by
  intro faults
  have hbind : (m >>= fun _ => (pure b : Session σ β)) s faults = match m s faults with
      | (.ok _, s, faults) => (.ok b, s, faults)
      | (.error halt, s, faults) => (.error halt, s, faults) := rfl
  rw [hbind]
  refine ⟨fun hquiet => by rw [(h faults).1 hquiet], fun hfault => ?_⟩
  obtain ⟨message, rest, hm⟩ := (h faults).2 hfault
  exact ⟨message, rest, by rw [hm]⟩

theorem makes_begin (s : σ) : Makes 1 begin s s s :=
  makes_bind (makes_op s) (makes_nothing fun _ => rfl)

theorem makes_commit (s copy : σ) : Makes 1 (commit copy) s () copy :=
  makes_bind (makes_op s) (makes_nothing fun _ => rfl)

end Operations

end Session

/-- A store behind a worker thread. A panic ends the thread, and with it the receiving end of the
queue. -/
structure Service (σ : Type) where
  db : σ
  alive : Bool

namespace Service

open Session

variable {σ α : Type}

/-- The worker runs one session; a dead worker runs none, and every caller gets the same error
from its closed channel. -/
def serve (m : Session σ α) (faults : Faults) (s : Service σ) : Except String α × Service σ :=
  if s.alive then
    match m s.db faults with
    | (.ok v, db, _) => (.ok v, ⟨db, true⟩)
    | (.error (.error message), db, _) => (.error message, ⟨db, true⟩)
    | (.error .panic, db, _) => (.error "channel closed", ⟨db, false⟩)
  else (.error "channel closed", s)

theorem serve_dead (m : Session σ α) (faults : Faults) {s : Service σ} (h : s.alive = false) :
    serve m faults s = (.error "channel closed", s) := by
  simp [serve, h]

/-- An answer is what a session ended with, and an error says so or that there was none. -/
theorem serve_ends (m : Session σ α) (faults : Faults) (s : Service σ) :
    (∃ v, (serve m faults s).1 = .ok v ∧ m.Ends s.db (.ok v) (serve m faults s).2.db) ∨
      ∃ message, (serve m faults s).1 = .error message ∧
        ((serve m faults s).2 = s ∨
          ∃ halt, m.Ends s.db (.error halt) (serve m faults s).2.db) := by
  cases halive : s.alive with
  | false =>
    rw [serve_dead m faults halive]
    exact Or.inr ⟨_, rfl, Or.inl rfl⟩
  | true =>
    have hends := ends_run m s.db faults
    simp only [serve, halive, if_true]
    revert hends
    rcases m s.db faults with ⟨halt | v, db, rest⟩ <;> intro hends
    · cases halt with
      | error message => exact Or.inr ⟨message, rfl, Or.inr ⟨_, hends⟩⟩
      | panic => exact Or.inr ⟨"channel closed", rfl, Or.inr ⟨_, hends⟩⟩
    · exact Or.inl ⟨v, rfl, hends⟩

theorem serve_makes {n : ℕ} {m : Session σ α} {s : Service σ} {a : α} {db : σ} {faults : Faults}
    (alive : s.alive = true) (h : Makes n m s.db a db) :
    (Quiet (faults.take n) → serve m faults s = (.ok a, ⟨db, true⟩)) ∧
      (¬ Quiet (faults.take n) → ∃ message, serve m faults s = (.error message, s)) := by
  simp only [serve, alive, if_true]
  refine ⟨fun hquiet => by rw [(h faults).1 hquiet], fun hfault => ?_⟩
  obtain ⟨message, rest, hm⟩ := (h faults).2 hfault
  refine ⟨message, ?_⟩
  rw [hm, ← alive]

theorem eq_of_serve_ok {n : ℕ} {m : Session σ α} {s : Service σ} {a b : α} {db : σ}
    {faults : Faults} (h : Makes n m s.db a db) (answered : (serve m faults s).1 = .ok b) :
    b = a := by
  rcases serve_ends m faults s with ⟨v, hok, hends⟩ | ⟨message, herror, _⟩
  · obtain rfl := Except.ok.inj (hok.symm.trans answered)
    rcases ends_of_makes h hends with ⟨_, message, hr⟩ | ⟨hr, _⟩
    · cases hr
    · exact Except.ok.inj hr
  · rw [herror] at answered
    cases answered

end Service

end RustExperiments.Lib
