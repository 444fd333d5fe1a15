/- module: RustExperiments/Mermaid/Record
   digest: The text of a canvas is a record of the calls that were made on it. -/

import RustExperiments.Mermaid.Runs

set_option autoImplicit false
set_option relaxedAutoImplicit false

namespace RustExperiments.Mermaid

open RustExperiments.Lib

/-- A call on a canvas, with the numbers of the participants. -/
inductive Call where
  | create (i : ℤ) (name : String)
  | arrow (i rhs : ℤ) (text : String)
  | drop (i : ℤ)
  deriving DecidableEq, Repr

namespace Call

def lines : Call → List Line
  | .create i name => createLines i name.toList
  | .arrow i rhs text => [.arrow false i rhs text.toList]
  | .drop i => destroyLines i

def Unbroken : Call → Prop
  | .create _ name => '\n' ∉ name.toList
  | .arrow _ _ text => '\n' ∉ text.toList
  | .drop _ => True

end Call

def diagramOf (calls : List Call) : List Line := headerLines ++ calls.flatMap Call.lines

section Reading

def readCalls : List Line → Option (List Call)
  | [.blank] => some []
  | .create i name :: .arrow true 0 j text :: ls =>
    if i = j ∧ text = "create".toList then
      (readCalls ls).map (.create i (String.ofList name) :: ·)
    else none
  | .destroy i :: .arrow true j 0 text :: ls =>
    if i = j ∧ text = "destroy".toList then (readCalls ls).map (.drop i :: ·) else none
  | .arrow false i rhs text :: ls => (readCalls ls).map (.arrow i rhs (String.ofList text) :: ·)
  | _ => none

/-- The calls that a text of a canvas tells of. -/
def readCanvas (contents : String) : Option (List Call) :=
  (readDiagram contents.toList).bind fun ls =>
    if ls.take headerLines.length = headerLines then readCalls (ls.drop headerLines.length)
    else none

theorem readCalls_lines (call : Call) (ls : List Line) :
    readCalls (call.lines ++ ls) = (readCalls ls).map (call :: ·) := by
  cases call with
  | create i name =>
    show readCalls (.create i name.toList :: .arrow true 0 i "create".toList :: ls) = _
    rw [readCalls, if_pos ⟨rfl, rfl⟩, String.ofList_toList]
  | arrow i rhs text =>
    show readCalls (.arrow false i rhs text.toList :: ls) = _
    rw [readCalls, String.ofList_toList]
  | drop i =>
    show readCalls (.destroy i :: .arrow true i 0 "destroy".toList :: ls) = _
    rw [readCalls, if_pos ⟨rfl, rfl⟩]

theorem readCalls_flatMap (calls : List Call) :
    readCalls (calls.flatMap Call.lines ++ [.blank]) = some calls := by
  induction calls with
  | nil => rfl
  | cons call calls ih =>
    rw [List.flatMap_cons, List.append_assoc, readCalls_lines, ih]
    rfl

theorem Call.unbroken_lines {call : Call} (unbroken : call.Unbroken) :
    Mermaid.Unbroken call.lines := by
  cases call with
  | create i name => exact unbroken_createLines i unbroken
  | arrow i rhs text => exact unbroken_arrow i rhs unbroken
  | drop i => exact unbroken_destroyLines i

theorem unbroken_diagramOf {calls : List Call} (unbroken : ∀ call ∈ calls, call.Unbroken) :
    Unbroken (diagramOf calls) := by
  apply unbroken_headerLines.append
  intro l hl
  obtain ⟨call, hcall, hl⟩ := List.mem_flatMap.mp hl
  exact Call.unbroken_lines (unbroken call hcall) l hl

theorem readCanvas_diagramOf {contents : String} {calls : List Call}
    (unbroken : ∀ call ∈ calls, call.Unbroken)
    (recorded : contents.toList = textOf ((diagramOf calls).map Line.write)) :
    readCanvas contents = some calls := by
  rw [readCanvas, recorded, readDiagram_textOf (unbroken_diagramOf unbroken), Option.bind_some,
    diagramOf, List.append_assoc, List.take_left, if_pos rfl, List.drop_left]
  exact readCalls_flatMap calls

end Reading

section Calls

def State.call (checks : Bool) (s : State) : Input → Option (ℕ × Call)
  | .newCanvas => none
  | .newParticipant canvas name => do
    let data ← s.canvases[canvas]?
    let i ← i32Fit checks (data.i + 1)
    some (canvas, .create i name)
  | .addArrowTo self rhs text => do
    let self ← s.alive self
    let rhs ← s.alive rhs
    some (self.canvas, .arrow self.i rhs.i text)
  | .drop self => do
    let self ← s.alive self
    some (self.canvas, .drop self.i)

def State.callOn (checks : Bool) (c : ℕ) (s : State) (input : Input) : List Call :=
  match s.call checks input with
  | some (canvas, call) => if canvas = c then [call] else []
  | none => []

def callsOn (checks : Bool) (c : ℕ) : State → List Input → List Call
  | _, [] => []
  | s, input :: inputs =>
    s.callOn checks c input ++ match step checks s input with
      | some (t, _) => callsOn checks c t inputs
      | none => []

variable {checks : Bool} {s t : State} {o : List Created} {c : ℕ}

theorem callsOn_concat {inputs : List Input} {input : Input}
    (run : (machine checks).run s inputs = some (t, o)) :
    callsOn checks c s (inputs ++ [input]) =
      callsOn checks c s inputs ++ t.callOn checks c input := by
  induction inputs generalizing s o with
  | nil =>
    cases run
    show t.callOn checks c input ++ _ = _
    cases step checks t input <;> simp [callsOn]
  | cons first inputs ih =>
    obtain ⟨mid, o₁, o₂, hstep, hrun, _⟩ := (Machine.run_cons_iff _).mp run
    have hfirst : step checks s first = some (mid, o₁) := hstep
    rw [List.cons_append, callsOn, callsOn, hfirst, List.append_assoc]
    simp only
    rw [ih hrun]

theorem callOn_unbroken {input : Input} (unbroken : input.Unbroken) :
    ∀ call ∈ s.callOn checks c input, call.Unbroken := by
  intro call hcall
  rw [State.callOn] at hcall
  split at hcall
  · rename_i canvas call' hmade
    split_ifs at hcall with hcanvas
    · obtain rfl := List.mem_singleton.mp hcall
      cases input with
      | newCanvas => cases hmade
      | newParticipant d name =>
        simp only [State.call, Option.bind_eq_bind, Option.bind_eq_some_iff] at hmade
        obtain ⟨data, _, i, _, heq⟩ := hmade
        cases heq
        exact unbroken
      | addArrowTo p q text =>
        simp only [State.call, Option.bind_eq_bind, Option.bind_eq_some_iff] at hmade
        obtain ⟨self, _, rhs, _, heq⟩ := hmade
        cases heq
        exact unbroken
      | drop p =>
        simp only [State.call, Option.bind_eq_bind, Option.bind_eq_some_iff] at hmade
        obtain ⟨self, _, heq⟩ := hmade
        cases heq
        trivial
    · cases hcall
  · cases hcall

theorem callsOn_unbroken {inputs : List Input} (unbroken : ∀ input ∈ inputs, input.Unbroken) :
    ∀ call ∈ callsOn checks c s inputs, call.Unbroken := by
  induction inputs generalizing s with
  | nil => simp [callsOn]
  | cons input inputs ih =>
    intro call hcall
    rw [callsOn, List.mem_append] at hcall
    rcases hcall with hfirst | hrest
    · exact callOn_unbroken (unbroken input List.mem_cons_self) call hfirst
    · split at hrest
      · exact ih (fun input' h => unbroken input' (List.mem_cons_of_mem _ h)) call hrest
      · cases hrest

end Calls

section Record

variable {checks : Bool} {s t : State} {o created : List Created}

/-- The text of a canvas is the diagram of these calls. -/
def Recorded (data : Data) (calls : List Call) : Prop :=
  data.contents.toList = textOf ((diagramOf calls).map Line.write)

theorem recorded_new : Recorded Canvas.new [] := by
  show Canvas.new.contents.toList = textOf ((headerLines ++ []).map Line.write)
  rw [List.append_nil]
  exact new_toList

theorem Recorded.append {data : Data} {calls : List Call} (recorded : Recorded data calls)
    {call : Call} {text : String} (written : text.toList = textOf (call.lines.map Line.write)) :
    Recorded (Canvas.append data text) (calls ++ [call]) := by
  show (Canvas.append data text).contents.toList = _
  rw [append_toList, recorded, written, ← textOf_append, ← List.map_append, diagramOf, diagramOf,
    List.flatMap_append, List.flatMap_singleton, List.append_assoc]

/-- Every canvas is a record of its calls, and none has been made on a canvas that is not there. -/
structure Records (s : State) (calls : ℕ → List Call) : Prop where
  recorded : ∀ c data, s.canvases[c]? = some data → Recorded data (calls c)
  absent : ∀ c, s.canvases.length ≤ c → calls c = []

theorem Records.set {calls : ℕ → List Call} (records : Records s calls) {d : ℕ} {data data' : Data}
    (hdata : s.canvases[d]? = some data) {call : Call}
    (recorded : Recorded data' (calls d ++ [call])) {participants : List (Option Participant)} :
    Records ⟨s.canvases.set d data', participants⟩
      fun c => calls c ++ if d = c then [call] else [] := by
  have hlt : d < s.canvases.length := (List.getElem?_eq_some_iff.mp hdata).1
  constructor
  · intro c x hx
    by_cases hcd : d = c
    · subst hcd
      have hset : (s.canvases.set d data')[d]? = some data' := List.getElem?_set_self hlt
      obtain rfl := Option.some.inj (hset.symm.trans hx)
      rw [if_pos rfl]
      exact recorded
    · have hold : s.canvases[c]? = some x := by
        rw [← hx]
        exact (List.getElem?_set_ne hcd).symm
      rw [if_neg hcd, List.append_nil]
      exact records.recorded c x hold
  · intro c hc
    have hlength : s.canvases.length ≤ c := by
      rw [List.length_set] at hc
      exact hc
    have hcd : d ≠ c := by omega
    rw [if_neg hcd, records.absent c hlength]
    rfl

theorem Records.step {calls : ℕ → List Call} (records : Records s calls) {input : Input}
    (h : step checks s input = some (t, o)) :
    Records t fun c => calls c ++ s.callOn checks c input := by
  cases input with
  | newCanvas =>
    cases h
    constructor
    · intro c data hdata
      show Recorded data (calls c ++ [])
      rw [List.append_nil]
      rcases Nat.lt_or_ge c s.canvases.length with hlt | hge
      · apply records.recorded c data
        rwa [List.getElem?_append_left hlt] at hdata
      · rw [List.getElem?_append_right hge] at hdata
        obtain ⟨_, hnew⟩ := List.getElem?_eq_some_iff.mp hdata
        rw [List.getElem_singleton] at hnew
        rw [records.absent c hge, ← hnew]
        exact recorded_new
    · intro c hc
      rw [List.length_append] at hc
      show calls c ++ [] = []
      rw [List.append_nil]
      exact records.absent c (by omega)
  | newParticipant d name =>
    obtain ⟨data, i, hdata, hi, rfl, _⟩ := step_newParticipant h
    have hcall : ∀ c, s.callOn checks c (.newParticipant d name) =
        if d = c then [.create i name] else [] := by
      intro c
      simp [State.callOn, State.call, hdata, hi]
    simp only [hcall]
    apply records.set hdata
    exact Recorded.append (records.recorded d data hdata) (createText_toList i name)
  | addArrowTo p q text =>
    obtain ⟨self, rhs, data, hself, hrhs, hdata, rfl, _⟩ := step_addArrowTo h
    have hcall : ∀ c, s.callOn checks c (.addArrowTo p q text) =
        if self.canvas = c then [.arrow self.i rhs.i text] else [] := by
      intro c
      simp [State.callOn, State.call, hself, hrhs]
    simp only [hcall]
    apply records.set hdata
    exact Recorded.append (records.recorded _ data hdata) (arrowText_toList self.i rhs.i text)
  | drop p =>
    obtain ⟨self, data, hself, hdata, rfl, _⟩ := step_drop h
    have hcall : ∀ c, s.callOn checks c (.drop p) =
        if self.canvas = c then [.drop self.i] else [] := by
      intro c
      simp [State.callOn, State.call, hself]
    simp only [hcall]
    apply records.set hdata
    exact Recorded.append (records.recorded _ data hdata) (destroyText_toList self.i)

theorem records_of_run {inputs : List Input}
    (run : (machine checks).run .initial inputs = some (s, created)) :
    Records s fun c => callsOn checks c .initial inputs := by
  refine Machine.run_invariant (machine checks)
    (fun is _ s => Records s fun c => callsOn checks c .initial is) ?_ ?_ run
  · constructor
    · intro c data hdata
      cases hdata
    · intro c _
      rfl
  · intro is os s input t o hrun records hstep
    have hcalls : (fun c => callsOn checks c .initial (is ++ [input])) =
        fun c => callsOn checks c .initial is ++ s.callOn checks c input := by
      funext c
      exact callsOn_concat hrun
    rw [hcalls]
    exact records.step hstep

/-- What the text of a canvas tells are the calls that were made on it, in their order, whatever
was done to other canvases meanwhile. Two canvases, also of two programs, show the same text
exactly when the same calls were made on them. -/
theorem canvas_records {inputs : List Input}
    (run : (machine checks).run .initial inputs = some (s, created))
    (unbroken : ∀ input ∈ inputs, input.Unbroken) {c : ℕ} {data : Data}
    (hdata : s.canvases[c]? = some data) :
    readCanvas data.contents = some (callsOn checks c .initial inputs) ∧
    ∀ (checks' : Bool) (inputs' : List Input) (s' : State) (created' : List Created) (c' : ℕ)
      (data' : Data), (machine checks').run .initial inputs' = some (s', created') →
      (∀ input ∈ inputs', input.Unbroken) → s'.canvases[c']? = some data' →
      (data.contents = data'.contents ↔
        callsOn checks c .initial inputs = callsOn checks' c' .initial inputs') := by
  have hrecorded := (records_of_run run).recorded c data hdata
  have hread : readCanvas data.contents = some (callsOn checks c .initial inputs) :=
    readCanvas_diagramOf (callsOn_unbroken unbroken) hrecorded
  refine ⟨hread, fun checks' inputs' s' created' c' data' run' unbroken' hdata' => ?_⟩
  have hrecorded' := (records_of_run run').recorded c' data' hdata'
  constructor
  · intro hsame
    have hread' : readCanvas data'.contents = some (callsOn checks' c' .initial inputs') :=
      readCanvas_diagramOf (callsOn_unbroken unbroken') hrecorded'
    rw [← hsame, hread] at hread'
    exact Option.some.inj hread'
  · intro hsame
    have htext : data.contents.toList = data'.contents.toList := by
      rw [hrecorded, hrecorded', hsame]
    exact String.toList_injective htext

-- One arrow with a line break in its text writes what two arrows write.
set_option maxRecDepth 10000 in
example :
    ((machine true).run .initial [.newCanvas, .newParticipant 0 "p",
      .addArrowTo 0 0 "x\n    I1->>I1: y"]).map (fun p => p.1.canvases) =
    ((machine true).run .initial [.newCanvas, .newParticipant 0 "p", .addArrowTo 0 0 "x",
      .addArrowTo 0 0 "y"]).map fun p => p.1.canvases := by
  decide

theorem across_recorded : ∃ s created data,
    (machine true).run .initial acrossInputs = some (s, created) ∧ s.canvases[0]? = some data ∧
    readCanvas data.contents = some [.create 1 "foo", .arrow 1 2 "Hello!"] := by
  have hunbroken : ∀ input ∈ acrossInputs, input.Unbroken := by decide
  have hcalls : callsOn true 0 .initial acrossInputs =
      [.create 1 "foo", .arrow 1 2 "Hello!"] := by decide
  obtain ⟨s, created, data, run, hdata⟩ : ∃ s created data,
      (machine true).run .initial acrossInputs = some (s, created) ∧
        s.canvases[0]? = some data := ⟨_, _, _, rfl, rfl⟩
  refine ⟨s, created, data, run, hdata, ?_⟩
  rw [← hcalls]
  exact (canvas_records run hunbroken hdata).1

end Record

end RustExperiments.Mermaid
