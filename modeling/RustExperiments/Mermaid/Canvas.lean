/- module: RustExperiments/Mermaid/Canvas
   digest: Canvases, their participants, and the program as a machine over all of them. -/

import Mathlib.Algebra.Group.Int.Defs
import Mathlib.Algebra.Group.Nat.Defs
import Mathlib.Tactic.SplitIfs
import RustExperiments.Lib.Machine

set_option autoImplicit false
set_option relaxedAutoImplicit false

namespace RustExperiments.Mermaid

open RustExperiments.Lib

/-- The result of an `i32` operation whose exact value is `v`. -/
def i32Fit (checks : Bool) (v : ℤ) : Option ℤ :=
  if -2 ^ 31 ≤ v ∧ v < 2 ^ 31 then some v else if checks then none else some (v.bmod (2 ^ 32))

structure Data where
  contents : String
  i : ℤ
  deriving DecidableEq, Repr

/-- A handle on a participant; its canvas is named by the order of creation. -/
structure Participant where
  canvas : ℕ
  i : ℤ
  name : String
  deriving DecidableEq, Repr

namespace Canvas

def new : Data :=
  ⟨"sequenceDiagram\n    create participant I0 as root\n    autonumber\n", 0⟩

def append (data : Data) (s : String) : Data := { data with contents := data.contents ++ s }

/-- The canvas afterwards and the number of the participant; no result where `i += 1` panics. -/
def newParticipant (checks : Bool) (data : Data) (s : String) : Option (Data × ℤ) :=
  (i32Fit checks (data.i + 1)).map fun i =>
    (append { data with i := i }
      s!"    create participant I{i} as {s}\n    I0-->>I{i}: create\n", i)

/-- What `add_arrow_to` does to the canvas of `self`, with the numbers of both participants. -/
def addArrow (data : Data) (i rhs : ℤ) (text : String) : Data :=
  append data s!"    I{i}->>I{rhs}: {text}\n"

/-- What dropping a participant does to its canvas. -/
def dropParticipant (data : Data) (i : ℤ) : Data :=
  append data s!"    destroy I{i}\n    I{i}-->>I0: destroy\n"

end Canvas

/-- Every canvas, and every participant that was created, those that were dropped as `none`. -/
structure State where
  canvases : List Data
  participants : List (Option Participant)
  deriving DecidableEq, Repr

def State.initial : State := ⟨[], []⟩

def State.alive (s : State) (p : ℕ) : Option Participant := s.participants[p]?.join

inductive Input where
  | newCanvas
  | newParticipant (canvas : ℕ) (name : String)
  | addArrowTo (self rhs : ℕ) (text : String)
  | drop (self : ℕ)
  deriving DecidableEq, Repr

structure Created where
  canvas : ℕ
  i : ℤ
  deriving DecidableEq, Repr

/-- One call. A handle of a dropped participant cannot be passed any more. -/
def step (checks : Bool) (s : State) : Input → Option (State × List Created)
  | .newCanvas => some ({ s with canvases := s.canvases ++ [Canvas.new] }, [])
  | .newParticipant canvas name => do
    let data ← s.canvases[canvas]?
    let (data, i) ← Canvas.newParticipant checks data name
    some ({ canvases := s.canvases.set canvas data
            participants := s.participants ++ [some ⟨canvas, i, name⟩] }, [⟨canvas, i⟩])
  | .addArrowTo self rhs text => do
    let self ← s.alive self
    let rhs ← s.alive rhs
    let data ← s.canvases[self.canvas]?
    some ({ s with
      canvases := s.canvases.set self.canvas (Canvas.addArrow data self.i rhs.i text) }, [])
  | .drop p => do
    let self ← s.alive p
    let data ← s.canvases[self.canvas]?
    some ({ canvases := s.canvases.set self.canvas (Canvas.dropParticipant data self.i)
            participants := s.participants.set p none }, [])

/-- All programs that use the module, as the sequences of their calls. -/
def machine (checks : Bool) : Machine State Input Created where
  step := step checks

section Steps

variable {checks : Bool} {s t : State} {o : List Created}

theorem step_newParticipant {canvas : ℕ} {name : String}
    (h : step checks s (.newParticipant canvas name) = some (t, o)) :
    ∃ data i, s.canvases[canvas]? = some data ∧ i32Fit checks (data.i + 1) = some i ∧
      t = ⟨s.canvases.set canvas (Canvas.append { data with i := i }
        s!"    create participant I{i} as {name}\n    I0-->>I{i}: create\n"),
        s.participants ++ [some ⟨canvas, i, name⟩]⟩ ∧ o = [⟨canvas, i⟩] := by
  simp only [step, Canvas.newParticipant, Option.bind_eq_bind, Option.bind_eq_some_iff,
    Option.map_eq_some_iff] at h
  obtain ⟨data, hdata, _, ⟨i, hi, rfl⟩, h⟩ := h
  cases h
  exact ⟨data, i, hdata, hi, rfl, rfl⟩

theorem step_addArrowTo {p q : ℕ} {text : String}
    (h : step checks s (.addArrowTo p q text) = some (t, o)) :
    ∃ self rhs data, s.alive p = some self ∧ s.alive q = some rhs ∧
      s.canvases[self.canvas]? = some data ∧
      t = { s with
        canvases := s.canvases.set self.canvas (Canvas.addArrow data self.i rhs.i text) } ∧
      o = [] := by
  simp only [step, Option.bind_eq_bind, Option.bind_eq_some_iff] at h
  obtain ⟨self, hself, rhs, hrhs, data, hdata, h⟩ := h
  cases h
  exact ⟨self, rhs, data, hself, hrhs, hdata, rfl, rfl⟩

theorem step_drop {p : ℕ} (h : step checks s (.drop p) = some (t, o)) :
    ∃ self data, s.alive p = some self ∧ s.canvases[self.canvas]? = some data ∧
      t = ⟨s.canvases.set self.canvas (Canvas.dropParticipant data self.i),
        s.participants.set p none⟩ ∧ o = [] := by
  simp only [step, Option.bind_eq_bind, Option.bind_eq_some_iff] at h
  obtain ⟨self, hself, data, hdata, h⟩ := h
  cases h
  exact ⟨self, data, hself, hdata, rfl, rfl⟩

end Steps

end RustExperiments.Mermaid
