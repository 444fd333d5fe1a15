/- module: RustExperiments/Lib/Json
   digest: Flat JSON objects as `serde_json` writes them, and their reading back. -/

import Mathlib.Data.Int.Notation
import Mathlib.Tactic.SplitIfs
import RustExperiments.Lib.Decimal

set_option autoImplicit false
set_option relaxedAutoImplicit false

namespace RustExperiments.Lib.Json

section Strings

def hexDigit (d : ℕ) : Char := if d < 10 then Char.ofNat (48 + d) else Char.ofNat (87 + d)

def hexValue (c : Char) : Option ℕ :=
  if '0' ≤ c ∧ c ≤ '9' then some (c.toNat - 48)
  else if 'a' ≤ c ∧ c ≤ 'f' then some (c.toNat - 87) else none

def escapeControl (n : ℕ) : List Char := ['\\', 'u', '0', '0', hexDigit (n / 16), hexDigit (n % 16)]

/-- Quotes, backslashes and control characters are escaped, and nothing else is. -/
def escapeChar (c : Char) : List Char :=
  if c = '"' then ['\\', '"']
  else if c = '\\' then ['\\', '\\']
  else if c = '\x08' then ['\\', 'b']
  else if c = '\t' then ['\\', 't']
  else if c = '\n' then ['\\', 'n']
  else if c = '\x0c' then ['\\', 'f']
  else if c = '\r' then ['\\', 'r']
  else if c.toNat < 32 then escapeControl c.toNat
  else [c]

def escape (s : List Char) : List Char := s.flatMap escapeChar

def quote (s : String) : List Char := '"' :: escape s.toList ++ ['"']

def letterValue (c : Char) : Option Char :=
  if c = '"' then some '"'
  else if c = '\\' then some '\\'
  else if c = 'b' then some '\x08'
  else if c = 't' then some '\t'
  else if c = 'n' then some '\n'
  else if c = 'f' then some '\x0c'
  else if c = 'r' then some '\r'
  else none

/-- Reads what `escape` wrote up to the closing quote, and the text behind the quote. -/
def unescape : List Char → Option (List Char × List Char)
  | [] => none
  | '\\' :: 'u' :: '0' :: '0' :: h :: l :: cs =>
    (hexValue h).bind fun h => (hexValue l).bind fun l =>
      (unescape cs).map fun p => (Char.ofNat (16 * h + l) :: p.1, p.2)
  | '\\' :: c :: cs =>
    (letterValue c).bind fun c => (unescape cs).map fun p => (c :: p.1, p.2)
  | c :: cs =>
    if c = '"' then some ([], cs)
    else if c = '\\' then none
    else (unescape cs).map fun p => (c :: p.1, p.2)

/-- A string literal at the front of a text, and the text behind it. -/
def unquote : List Char → Option (String × List Char)
  | c :: cs => if c = '"' then (unescape cs).map fun p => (String.ofList p.1, p.2) else none
  | [] => none

theorem hexValue_hexDigit : ∀ d < 16, hexValue (hexDigit d) = some d := by decide

theorem unescape_control {c : Char} (h : c.toNat < 32) (cs : List Char) :
    unescape (escapeControl c.toNat ++ cs) = (unescape cs).map fun p => (c :: p.1, p.2) := by
  have hhigh := hexValue_hexDigit (c.toNat / 16) (by omega)
  have hlow := hexValue_hexDigit (c.toNat % 16) (by omega)
  have hvalue : 16 * (c.toNat / 16) + c.toNat % 16 = c.toNat := Nat.div_add_mod _ _
  simp [escapeControl, unescape, hhigh, hlow, hvalue]

theorem unescape_plain {c : Char} (hquote : c ≠ '"') (hslash : c ≠ '\\') (cs : List Char) :
    unescape (c :: cs) = (unescape cs).map fun p => (c :: p.1, p.2) := by
  rw [unescape.eq_def]
  split
  · rename_i heq
    cases heq
  · rename_i heq
    exact absurd (List.cons.inj heq).1 hslash
  · rename_i heq
    exact absurd (List.cons.inj heq).1 hslash
  · rename_i heq
    obtain ⟨rfl, rfl⟩ := List.cons.inj heq
    rw [if_neg hquote, if_neg hslash]

theorem unescape_quote (cs : List Char) : unescape ('"' :: cs) = some ([], cs) := by
  simp [unescape]

theorem unescape_escapeChar (c : Char) (cs : List Char) :
    unescape (escapeChar c ++ cs) = (unescape cs).map fun p => (c :: p.1, p.2) := by
  unfold escapeChar
  split_ifs with hquote hslash hb ht hn hf hr hcontrol
  · subst hquote
    simp [unescape, letterValue]
  · subst hslash
    simp [unescape, letterValue]
  · subst hb
    simp [unescape, letterValue]
  · subst ht
    simp [unescape, letterValue]
  · subst hn
    simp [unescape, letterValue]
  · subst hf
    simp [unescape, letterValue]
  · subst hr
    simp [unescape, letterValue]
  · exact unescape_control hcontrol cs
  · exact unescape_plain hquote hslash cs

theorem unescape_escape (s rest : List Char) :
    unescape (escape s ++ '"' :: rest) = some (s, rest) := by
  induction s with
  | nil => exact unescape_quote rest
  | cons c s ih =>
    rw [escape, List.flatMap_cons, List.append_assoc, unescape_escapeChar, ← escape, ih]
    rfl

/-- A literal in front of any text reads back as its string. -/
@[simp] theorem unquote_quote (s : String) (rest : List Char) :
    unquote (quote s ++ rest) = some (s, rest) := by
  rw [quote, List.cons_append, List.cons_append, List.append_assoc, unquote, if_pos rfl,
    List.singleton_append, unescape_escape]
  simp

end Strings

section Objects

inductive Scalar where
  | string (s : String)
  | int (i : ℤ)
  deriving DecidableEq, Repr

def Scalar.write : Scalar → List Char
  | .string s => quote s
  | .int i => (toString i).toList

def writeFields (separator : Char) : List (String × Scalar) → List Char
  | [] => ['}']
  | (key, value) :: fields =>
    separator :: (quote key ++ ':' :: (value.write ++ writeFields ',' fields))

def writeObject (fields : List (String × Scalar)) : List Char := writeFields '{' fields

def writeArray : List (List Char) → List Char
  | [] => ['[', ']']
  | item :: items => '[' :: (item ++ items.flatMap (fun item => ',' :: item) ++ [']'])

def readNat (cs : List Char) : ℕ × List Char :=
  (Nat.ofDigitChars 10 (cs.takeWhile Char.isDigit) 0, cs.dropWhile Char.isDigit)

def Scalar.read : List Char → Option (Scalar × List Char)
  | [] => none
  | c :: cs =>
    if c = '"' then (unquote (c :: cs)).map fun p => (.string p.1, p.2)
    else if c = '-' then some (.int (-(readNat cs).1), (readNat cs).2)
    else some (.int (readNat (c :: cs)).1, (readNat (c :: cs)).2)

def readFields (separator : Char) : List String → List Char → Option (List Scalar)
  | [], cs => if cs = ['}'] then some [] else none
  | _ :: _, [] => none
  | key :: keys, c :: cs =>
    if c = separator then
      (unquote cs).bind fun p =>
        if p.1 = key ∧ p.2.head? = some ':' then
          (Scalar.read p.2.tail).bind fun v => (readFields ',' keys v.2).map fun vs => v.1 :: vs
        else none
    else none

def readObject (keys : List String) (cs : List Char) : Option (List Scalar) :=
  readFields '{' keys cs

theorem takeWhile_append_of_head {p : Char → Bool} {xs rest : List Char} (all : ∀ x ∈ xs, p x)
    (stop : ∀ c ∈ rest.head?, p c = false) : (xs ++ rest).takeWhile p = xs := by
  rw [List.takeWhile_append_of_pos all]
  cases rest with
  | nil => simp
  | cons c rest => simp [stop c rfl]

theorem dropWhile_append_of_head {p : Char → Bool} {xs rest : List Char} (all : ∀ x ∈ xs, p x)
    (stop : ∀ c ∈ rest.head?, p c = false) : (xs ++ rest).dropWhile p = rest := by
  rw [List.dropWhile_append_of_pos all]
  cases rest with
  | nil => rfl
  | cons c rest => simp [stop c rfl]

theorem readNat_toString (n : ℕ) {rest : List Char}
    (stop : ∀ c ∈ rest.head?, c.isDigit = false) :
    readNat ((toString n).toList ++ rest) = (n, rest) := by
  have hdigits : ∀ c ∈ (toString n).toList, c.isDigit := by
    intro c hc
    rw [toString_toList] at hc
    exact Nat.isDigit_of_mem_toDigits (by decide) (by decide) hc
  rw [readNat, takeWhile_append_of_head hdigits stop, dropWhile_append_of_head hdigits stop,
    toString_toList, Nat.ofDigitChars_ten_toDigits]

theorem toString_head_isDigit (n : ℕ) :
    ∃ c cs, (toString n).toList = c :: cs ∧ c.isDigit = true := by
  cases h : (toString n).toList with
  | nil =>
    rw [toString_toList] at h
    exact absurd h Nat.toDigits_ne_nil
  | cons c cs =>
    refine ⟨c, cs, rfl, ?_⟩
    have hmem : c ∈ Nat.toDigits 10 n := by
      rw [← toString_toList, h]
      exact List.mem_cons_self
    exact Nat.isDigit_of_mem_toDigits (by decide) (by decide) hmem

theorem toString_negSucc (n : ℕ) :
    (toString (Int.negSucc n)).toList = '-' :: (toString (n + 1)).toList := by
  have hrepr : toString (Int.negSucc n) = "-" ++ toString (n + 1) := rfl
  rw [hrepr, String.toList_append]
  rfl

theorem Scalar.read_write (v : Scalar) {rest : List Char}
    (stop : ∀ c ∈ rest.head?, c.isDigit = false) :
    Scalar.read (v.write ++ rest) = some (v, rest) := by
  cases v with
  | string s =>
    have hunquote := unquote_quote s rest
    rw [quote, List.cons_append, List.cons_append] at hunquote
    rw [Scalar.write, quote, List.cons_append, List.cons_append, Scalar.read, if_pos rfl, hunquote]
    rfl
  | int i =>
    cases i with
    | ofNat n =>
      obtain ⟨c, cs, hcs, hdigit⟩ := toString_head_isDigit n
      have hread := readNat_toString n stop
      have hquote : c ≠ '"' := by
        rintro rfl
        exact absurd hdigit (by decide)
      have hdash : c ≠ '-' := by
        rintro rfl
        exact absurd hdigit (by decide)
      rw [hcs, List.cons_append] at hread
      change Scalar.read ((toString n).toList ++ rest) = _
      rw [hcs, List.cons_append, Scalar.read, if_neg hquote, if_neg hdash, hread]
      rfl
    | negSucc n =>
      rw [Scalar.write, toString_negSucc, List.cons_append, Scalar.read, if_neg (by decide),
        if_pos rfl, readNat_toString (n + 1) stop]
      rfl

theorem writeFields_head (fields : List (String × Scalar)) :
    ∀ c ∈ (writeFields ',' fields).head?, c.isDigit = false := by
  cases fields with
  | nil => simp [writeFields]
  | cons field fields => simp [writeFields]

theorem readObject_writeObject (fields : List (String × Scalar)) :
    readObject (fields.map Prod.fst) (writeObject fields) = some (fields.map Prod.snd) := by
  unfold readObject writeObject
  generalize '{' = separator
  induction fields generalizing separator with
  | nil => rfl
  | cons field fields ih =>
    obtain ⟨key, value⟩ := field
    rw [List.map_cons, writeFields, readFields, if_pos rfl, unquote_quote, Option.bind_some,
      if_pos ⟨rfl, rfl⟩, List.tail_cons, value.read_write (writeFields_head fields),
      Option.bind_some, ih]
    rfl

end Objects

end RustExperiments.Lib.Json
