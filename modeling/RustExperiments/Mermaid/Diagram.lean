/- module: RustExperiments/Mermaid/Diagram
   digest: Sequence diagrams line by line: how a line is written and read, and lifetimes. -/

import RustExperiments.Lib.Lines

set_option autoImplicit false
set_option relaxedAutoImplicit false

namespace RustExperiments.Mermaid

open RustExperiments.Lib

/-- The lines of a sequence diagram; a dashed arrow is `-->>`, a solid one `->>`. -/
inductive Line where
  | blank
  | title
  | autonumber
  | create (i : ℤ) (name : List Char)
  | destroy (i : ℤ)
  | arrow (dashed : Bool) (source target : ℤ) (text : List Char)
  deriving DecidableEq, Repr

namespace Line

def number (i : ℤ) : List Char := 'I' :: (toString i).toList

def stroke (dashed : Bool) : List Char := if dashed then "-->>".toList else "->>".toList

def write : Line → List Char
  | blank => []
  | title => "sequenceDiagram".toList
  | autonumber => "    autonumber".toList
  | create i name => "    create participant ".toList ++ (number i ++ (" as ".toList ++ name))
  | destroy i => "    destroy ".toList ++ number i
  | arrow dashed source target text =>
    "    ".toList ++ (number source ++ (stroke dashed ++ (number target ++ (": ".toList ++ text))))

theorem write_create (i : ℤ) (name : List Char) : (create i name).write =
    "    create participant ".toList ++ (number i ++ (" as ".toList ++ name)) := rfl

theorem write_destroy (i : ℤ) : (destroy i).write = "    destroy ".toList ++ number i := rfl

theorem write_arrow (dashed : Bool) (source target : ℤ) (text : List Char) :
    (arrow dashed source target text).write = "    ".toList ++
      (number source ++ (stroke dashed ++ (number target ++ (": ".toList ++ text)))) := rfl

def readNumber : List Char → Option (ℤ × List Char)
  | 'I' :: c :: cs =>
    if c = '-' ∨ c.isDigit then
      match Json.Scalar.read (c :: cs) with
      | some (.int i, rest) => some (i, rest)
      | _ => none
    else none
  | _ => none

def readStroke (cs : List Char) : Option (Bool × List Char) :=
  match behind "-->>".toList cs with
  | some rest => some (true, rest)
  | none => (behind "->>".toList cs).map fun rest => (false, rest)

def readArrow (cs : List Char) : Option Line := do
  let (source, cs) ← readNumber cs
  let (dashed, cs) ← readStroke cs
  let (target, cs) ← readNumber cs
  let text ← behind ": ".toList cs
  some (arrow dashed source target text)

def readCreate (cs : List Char) : Option Line := do
  let (i, cs) ← readNumber cs
  let name ← behind " as ".toList cs
  some (create i name)

def readDestroy (cs : List Char) : Option Line := do
  let (i, cs) ← readNumber cs
  if cs = [] then some (destroy i) else none

def read (cs : List Char) : Option Line :=
  if cs = [] then some blank
  else if cs = "sequenceDiagram".toList then some title
  else if cs = "    autonumber".toList then some autonumber
  else match behind "    create participant ".toList cs with
  | some rest => readCreate rest
  | none =>
    match behind "    destroy ".toList cs with
    | some rest => readDestroy rest
    | none => (behind "    ".toList cs).bind readArrow

theorem readNumber_number (i : ℤ) {rest : List Char} (stop : ∀ c ∈ rest.head?, c.isDigit = false) :
    readNumber (number i ++ rest) = some (i, rest) := by
  have hread := (Json.Scalar.int i).read_write stop
  rw [Json.Scalar.write] at hread
  obtain ⟨c, cs, hcs, hfirst⟩ : ∃ c cs, (toString i).toList = c :: cs ∧
      (c = '-' ∨ c.isDigit = true) := by
    cases i with
    | ofNat n =>
      obtain ⟨c, cs, hcs, hdigit⟩ := Json.toString_head_isDigit n
      exact ⟨c, cs, hcs, Or.inr hdigit⟩
    | negSucc n => exact ⟨'-', _, Json.toString_negSucc n, Or.inl rfl⟩
  rw [hcs, List.cons_append] at hread
  rw [number, hcs, List.cons_append, List.cons_append, readNumber, if_pos hfirst, hread]

theorem readStroke_stroke (dashed : Bool) (rest : List Char) :
    readStroke (stroke dashed ++ rest) = some (dashed, rest) := by
  cases dashed <;> rfl

theorem readCreate_write (i : ℤ) (name : List Char) :
    readCreate (number i ++ (" as ".toList ++ name)) = some (create i name) := by
  have stop : ∀ c ∈ (" as ".toList ++ name).head?, c.isDigit = false := by simp
  simp only [readCreate, readNumber_number i stop, Option.bind_eq_bind, Option.bind_some,
    behind_append]

theorem readDestroy_write (i : ℤ) : readDestroy (number i) = some (destroy i) := by
  have stop : ∀ c ∈ ([] : List Char).head?, c.isDigit = false := by simp
  have hnumber := readNumber_number i stop
  rw [List.append_nil] at hnumber
  simp only [readDestroy, hnumber, Option.bind_eq_bind, Option.bind_some, if_true]

theorem readArrow_write (dashed : Bool) (source target : ℤ) (text : List Char) :
    readArrow (number source ++ (stroke dashed ++ (number target ++ (": ".toList ++ text)))) =
      some (arrow dashed source target text) := by
  have hcolon : ∀ c ∈ (": ".toList ++ text).head?, c.isDigit = false := by simp
  have hstroke : ∀ c ∈ (stroke dashed ++ (number target ++ (": ".toList ++ text))).head?,
      c.isDigit = false := by cases dashed <;> simp [stroke]
  simp only [readArrow, readNumber_number source hstroke, readNumber_number target hcolon,
    readStroke_stroke, Option.bind_eq_bind, Option.bind_some, behind_append]

theorem read_write (l : Line) : read l.write = some l := by
  cases l with
  | blank => rfl
  | title => rfl
  | autonumber => rfl
  | create i name => exact readCreate_write i name
  | destroy i => exact readDestroy_write i
  | arrow dashed source target text => exact readArrow_write dashed source target text

theorem newline_not_mem_number (i : ℤ) : '\n' ∉ number i := by
  have hnat : ∀ n : ℕ, '\n' ∉ (toString n).toList := by
    intro n hmem
    rw [toString_toList] at hmem
    exact absurd (Nat.isDigit_of_mem_toDigits (by decide) (by decide) hmem) (by decide)
  rw [number, List.mem_cons, not_or]
  refine ⟨by decide, ?_⟩
  cases i with
  | ofNat n => exact hnat n
  | negSucc n =>
    rw [Json.toString_negSucc, List.mem_cons, not_or]
    exact ⟨by decide, hnat (n + 1)⟩

def label : Line → List Char
  | create _ name => name
  | arrow _ _ _ text => text
  | _ => []

theorem newline_not_mem_write {l : Line} (h : '\n' ∉ l.label) : '\n' ∉ l.write := by
  cases l with
  | blank => exact List.not_mem_nil
  | title => decide
  | autonumber => decide
  | create i name =>
    rw [write_create]
    simp only [List.mem_append, not_or]
    exact ⟨by decide, newline_not_mem_number i, by decide, h⟩
  | destroy i =>
    rw [write_destroy, List.mem_append, not_or]
    exact ⟨by decide, newline_not_mem_number i⟩
  | arrow dashed source target text =>
    have hstroke : '\n' ∉ stroke dashed := by cases dashed <;> decide
    rw [write_arrow]
    simp only [List.mem_append, not_or]
    exact ⟨by decide, newline_not_mem_number source, hstroke, newline_not_mem_number target,
      by decide, h⟩

end Line

def readDiagram (text : List Char) : Option (List Line) := (text.splitOn '\n').mapM Line.read

theorem readDiagram_textOf {ls : List Line} (h : ∀ l ∈ ls, '\n' ∉ l.label) :
    readDiagram (textOf (ls.map Line.write)) = some (ls ++ [.blank]) := by
  have hlines : ∀ line ∈ ls.map Line.write, '\n' ∉ line := by
    intro line hline
    obtain ⟨l, hl, rfl⟩ := List.mem_map.mp hline
    exact Line.newline_not_mem_write (h l hl)
  rw [readDiagram, splitOn_textOf hlines]
  induction ls with
  | nil => rfl
  | cons l ls ih =>
    have hrest := ih (fun l' hl' => h l' (List.mem_cons_of_mem l hl')) fun line hline =>
      hlines line (List.mem_cons_of_mem _ hline)
    rw [List.map_cons, List.cons_append, List.mapM_cons, Line.read_write, hrest]
    rfl

section Lifetimes

def Line.numbers : Line → List ℤ
  | .create i _ => [i]
  | .destroy i => [i]
  | .arrow _ source target _ => [source, target]
  | _ => []

def Line.creates (i : ℤ) : Line → Bool
  | .create j _ => j = i
  | _ => false

/-- The dashed arrow to the root directly behind the destroy line of a participant. -/
def Farewell (before : List Line) (l : Line) (i : ℤ) : Prop :=
  before.getLast? = some (.destroy i) ∧ l = .arrow true i 0 "destroy".toList

def Introduced (ls : List Line) (i : ℤ) : Prop := ∃ l ∈ ls, l.creates i

def Alive (ls : List Line) (i : ℤ) : Prop := Introduced ls i ∧ .destroy i ∉ ls

/-- A diagram that keeps the lifetimes of its participants. -/
structure Lifetimes (ls : List Line) : Prop where
  /-- every number is introduced by exactly one create line -/
  once : ∀ l ∈ ls, ∀ i ∈ l.numbers, ls.countP (·.creates i) = 1
  /-- no line names a number before its create line, or after its destroy line and the farewell -/
  within : EachAfter (fun before l => ∀ i ∈ l.numbers, (l.creates i ∨ Introduced before i) ∧
    (.destroy i ∈ before → Farewell before l i)) ls
  /-- every arrow but the farewell names the root or participants that are alive -/
  arrows : EachAfter (fun before l => ∀ dashed source target text,
    l = .arrow dashed source target text → ∀ i ∈ [source, target],
      i = 0 ∨ Alive before i ∨ Farewell before l i) ls

end Lifetimes

end RustExperiments.Mermaid
