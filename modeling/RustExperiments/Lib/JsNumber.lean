/- module: RustExperiments/Lib/JsNumber
   digest: The decimal notation of numbers in ECMAScript, and the value of a numeral. -/

import Mathlib.Tactic.Linarith
import Mathlib.Tactic.Positivity
import Mathlib.Tactic.Ring
import RustExperiments.Lib.Double
import RustExperiments.Lib.Json

set_option autoImplicit false
set_option relaxedAutoImplicit false

namespace RustExperiments.Lib

open Double (digits positional isDigit_of_mem_digits ofDigitChars_digits digits_ne_nil
  isDigit_zeros)

/-- A finite double by its sign and the digits that `Number::toString` settles on. Both zeros are
`zero`. -/
inductive JsNumber where
  | zero
  | decimal (negative : Bool) (s : ℕ) (n : ℤ) (closest : Double.Closest s n)
  deriving DecidableEq, Repr

namespace JsNumber

section Notation

def exponentText (n : ℤ) : List Char :=
  'e' :: (if n < 0 then '-' else '+') :: digits (n - 1).natAbs

/-- The cases of `Number::toString` for a positive number. -/
def magnitudeText (s : ℕ) (n : ℤ) : List Char :=
  if -5 ≤ n ∧ n ≤ 21 then positional s n
  else if (digits s).length = 1 then digits s ++ exponentText n
  else (digits s).take 1 ++ '.' :: ((digits s).drop 1 ++ exponentText n)

/-- `Number::toString` in base ten. -/
def toText : JsNumber → List Char
  | zero => ['0']
  | decimal negative s n _ => (if negative then ['-'] else []) ++ magnitudeText s n

end Notation

section Values

def value : JsNumber → ℚ
  | zero => 0
  | decimal negative s n _ => (if negative then -1 else 1) * Double.decimal s n

theorem value_negative {s : ℕ} {n : ℤ} (h : Double.Closest s n) :
    (decimal true s n h).value = -Double.decimal s n := neg_one_mul _

theorem value_positive {s : ℕ} {n : ℤ} (h : Double.Closest s n) :
    (decimal false s n h).value = Double.decimal s n := one_mul _

def fraction : List Char → List Char × List Char
  | '.' :: cs => (cs.takeWhile Char.isDigit, cs.dropWhile Char.isDigit)
  | cs => ([], cs)

def exponent : List Char → ℤ
  | 'e' :: '-' :: cs => -(Nat.ofDigitChars 10 cs 0 : ℤ)
  | 'e' :: '+' :: cs => Nat.ofDigitChars 10 cs 0
  | _ => 0

def magnitude (cs : List Char) : ℚ :=
  let parts := fraction (cs.dropWhile Char.isDigit)
  (Nat.ofDigitChars 10 (cs.takeWhile Char.isDigit ++ parts.1) 0 : ℚ) *
    10 ^ (exponent parts.2 - parts.1.length)

/-- The value of a numeral of JSON. -/
def numeralValue : List Char → ℚ
  | '-' :: cs => -magnitude cs
  | cs => magnitude cs

end Values

section Reading

@[simp] theorem exponent_nil : exponent [] = 0 := rfl

theorem exponent_exponentText {n : ℤ} (h : n ≠ 0) : exponent (exponentText n) = n - 1 := by
  unfold exponentText
  split_ifs with hn
  · rw [exponent, ofDigitChars_digits]
    omega
  · rw [exponent, ofDigitChars_digits]
    omega

theorem magnitude_integer (ds rest : List Char) (all : ∀ c ∈ ds, c.isDigit)
    (stop : ∀ c ∈ rest.head?, c.isDigit = false ∧ c ≠ '.') :
    magnitude (ds ++ rest) = (Nat.ofDigitChars 10 ds 0 : ℚ) * 10 ^ exponent rest := by
  have hstop : ∀ c ∈ rest.head?, c.isDigit = false := fun c hc => (stop c hc).1
  have hfraction : fraction rest = ([], rest) := by
    match rest, stop with
    | [], _ => rfl
    | c :: rest, stop =>
      have hpoint : c ≠ '.' := (stop c rfl).2
      simp [fraction, hpoint]
  simp [magnitude, Json.takeWhile_append_of_head all hstop,
    Json.dropWhile_append_of_head all hstop, hfraction]

theorem magnitude_point (ds fs rest : List Char) (hds : ∀ c ∈ ds, c.isDigit)
    (hfs : ∀ c ∈ fs, c.isDigit) (stop : ∀ c ∈ rest.head?, c.isDigit = false) :
    magnitude (ds ++ '.' :: (fs ++ rest)) =
      (Nat.ofDigitChars 10 (ds ++ fs) 0 : ℚ) * 10 ^ (exponent rest - fs.length) := by
  have hpoint : ∀ c ∈ ('.' :: (fs ++ rest)).head?, c.isDigit = false := by
    intro c hc
    cases hc
    decide
  simp [magnitude, fraction, Json.takeWhile_append_of_head hds hpoint,
    Json.dropWhile_append_of_head hds hpoint, Json.takeWhile_append_of_head hfs stop,
    Json.dropWhile_append_of_head hfs stop]

theorem magnitude_zeros (s a : ℕ) :
    magnitude (digits s ++ List.replicate a '0') = (s : ℚ) * 10 ^ (a : ℤ) := by
  have hall : ∀ c ∈ digits s ++ List.replicate a '0', c.isDigit := fun c hc =>
    (List.mem_append.mp hc).elim isDigit_of_mem_digits (isDigit_zeros a c)
  have hvalue := magnitude_integer _ [] hall (by simp)
  rw [List.append_nil, Nat.ofDigitChars_append, ofDigitChars_digits,
    Nat.ofDigitChars_replicate_zero] at hvalue
  rw [hvalue, zpow_natCast]
  push_cast
  rw [exponent_nil, zpow_zero, mul_one, mul_comm]

theorem magnitude_inside (s m : ℕ) (h : m ≤ (digits s).length) :
    magnitude ((digits s).take m ++ '.' :: (digits s).drop m) =
      (s : ℚ) * 10 ^ ((m : ℤ) - (digits s).length) := by
  have hvalue := magnitude_point ((digits s).take m) ((digits s).drop m) []
    (fun c hc => isDigit_of_mem_digits (List.mem_of_mem_take hc))
    (fun c hc => isDigit_of_mem_digits (List.mem_of_mem_drop hc)) (by simp)
  rw [List.append_nil, List.take_append_drop, ofDigitChars_digits, exponent_nil,
    List.length_drop, Nat.cast_sub h] at hvalue
  rw [hvalue]
  congr 2
  omega

theorem magnitude_below (s a : ℕ) :
    magnitude ('0' :: '.' :: (List.replicate a '0' ++ digits s)) =
      (s : ℚ) * 10 ^ (-(a : ℤ) - (digits s).length) := by
  have hall : ∀ c ∈ List.replicate a '0' ++ digits s, c.isDigit := fun c hc =>
    (List.mem_append.mp hc).elim (isDigit_zeros a c) isDigit_of_mem_digits
  have hvalue := magnitude_point ['0'] _ [] (by simp) hall (by simp)
  have hdigits : Nat.ofDigitChars 10 (['0'] ++ (List.replicate a '0' ++ digits s)) 0 = s := by
    rw [Nat.ofDigitChars_append, Nat.ofDigitChars_append]
    have hzero : Nat.ofDigitChars 10 ['0'] 0 = 0 := by decide
    rw [hzero, Nat.ofDigitChars_replicate_zero, Nat.mul_zero, ofDigitChars_digits]
  rw [List.append_nil, hdigits, exponent_nil, List.length_append, List.length_replicate] at hvalue
  rw [List.singleton_append] at hvalue
  rw [hvalue]
  congr 2
  push_cast
  omega

theorem magnitude_scientific (s : ℕ) {n : ℤ} (h : n ≠ 0) :
    magnitude ((digits s).take 1 ++ '.' :: ((digits s).drop 1 ++ exponentText n)) =
      (s : ℚ) * 10 ^ (n - (digits s).length) := by
  have hpos : 0 < (digits s).length := List.length_pos_of_ne_nil (digits_ne_nil s)
  have hvalue := magnitude_point ((digits s).take 1) ((digits s).drop 1) (exponentText n)
    (fun c hc => isDigit_of_mem_digits (List.mem_of_mem_take hc))
    (fun c hc => isDigit_of_mem_digits (List.mem_of_mem_drop hc)) (by simp [exponentText])
  rw [List.take_append_drop, ofDigitChars_digits, exponent_exponentText h, List.length_drop,
    Nat.cast_sub hpos] at hvalue
  rw [hvalue]
  congr 2
  push_cast
  omega

theorem magnitude_magnitudeText (s : ℕ) (n : ℤ) :
    magnitude (magnitudeText s n) = (s : ℚ) * 10 ^ (n - (digits s).length) := by
  unfold magnitudeText positional
  split_ifs with hrange hwhole hpoint hone
  · rw [magnitude_zeros]
    congr 2
    omega
  · have hle : n.toNat ≤ (digits s).length := by omega
    rw [magnitude_inside s _ hle]
    congr 2
    omega
  · rw [magnitude_below]
    congr 2
    omega
  · have hn : n ≠ 0 := by omega
    have hvalue := magnitude_integer (digits s) (exponentText n)
      (fun c hc => isDigit_of_mem_digits hc) (by simp [exponentText])
    rw [hvalue, ofDigitChars_digits, exponent_exponentText hn, hone]
    norm_cast
  · exact magnitude_scientific s (by omega)

theorem magnitudeText_head (s : ℕ) (n : ℤ) :
    ∃ c cs, magnitudeText s n = c :: cs ∧ c.isDigit := by
  obtain ⟨d, ds, hdigits⟩ := List.exists_cons_of_ne_nil (digits_ne_nil s)
  have hd : d.isDigit := isDigit_of_mem_digits (by rw [hdigits]; exact List.mem_cons_self)
  unfold magnitudeText positional
  split_ifs with hrange hwhole hpoint hone
  · exact ⟨d, _, by rw [hdigits]; rfl, hd⟩
  · have hn : n.toNat = (n.toNat - 1) + 1 := by omega
    exact ⟨d, _, by rw [hdigits, hn]; rfl, hd⟩
  · exact ⟨'0', _, rfl, by decide⟩
  · exact ⟨d, _, by rw [hdigits]; rfl, hd⟩
  · exact ⟨d, _, by rw [hdigits]; rfl, hd⟩

/-- What is written is a numeral of the number itself. -/
theorem numeralValue_toText (x : JsNumber) : numeralValue x.toText = x.value := by
  cases x with
  | zero =>
    have hvalue := magnitude_integer ['0'] [] (by simp) (by simp)
    have hdigits : Nat.ofDigitChars 10 ['0'] 0 = 0 := by decide
    rw [List.append_nil, hdigits, Nat.cast_zero, zero_mul] at hvalue
    exact hvalue
  | decimal negative s n closest =>
    rw [value, Double.decimal, ← magnitude_magnitudeText]
    cases negative with
    | true => exact (neg_one_mul _).symm
    | false =>
      obtain ⟨c, cs, htext, hdigit⟩ := magnitudeText_head s n
      have hdash : c ≠ '-' := by
        rintro rfl
        exact absurd hdigit (by decide)
      change numeralValue (magnitudeText s n) = 1 * magnitude (magnitudeText s n)
      rw [one_mul, htext]
      simp [numeralValue, hdash]

theorem eq_of_scaled_eq {s s' : ℕ} {p p' : ℤ} (hs : s % 10 ≠ 0) (hle : p ≤ p')
    (h : (s : ℚ) * 10 ^ p = s' * 10 ^ p') : s = s' ∧ p = p' := by
  obtain ⟨k, rfl⟩ := Int.le.dest hle
  have hten : (10 : ℚ) ≠ 0 := by norm_num
  rw [zpow_add₀ hten, mul_comm ((10 : ℚ) ^ p), ← mul_assoc, zpow_natCast] at h
  have hcast := mul_right_cancel₀ (zpow_ne_zero p hten) h
  have hnat : s = s' * 10 ^ k := by exact_mod_cast hcast
  cases k with
  | zero => exact ⟨by simpa using hnat, by simp⟩
  | succ k =>
    rw [pow_succ, ← mul_assoc] at hnat
    omega

theorem decimal_pos {s : ℕ} (hs : s % 10 ≠ 0) (n : ℤ) : 0 < Double.decimal s n := by
  have hs' : 0 < s := by omega
  rw [Double.decimal]
  positivity

theorem decimal_injective {s s' : ℕ} {n n' : ℤ} (hs : s % 10 ≠ 0) (hs' : s' % 10 ≠ 0)
    (h : Double.decimal s n = Double.decimal s' n') : s = s' ∧ n = n' := by
  rcases le_total (n - (digits s).length) (n' - (digits s').length) with hle | hle
  · obtain ⟨rfl, hscale⟩ := eq_of_scaled_eq hs hle h
    exact ⟨rfl, by omega⟩
  · obtain ⟨rfl, hscale⟩ := eq_of_scaled_eq hs' hle h.symm
    exact ⟨rfl, by omega⟩

theorem value_injective {x y : JsNumber} (h : x.value = y.value) : x = y := by
  -- numbers of one sign and one magnitude
  have hsame : ∀ {negative : Bool} {s s' : ℕ} {n n' : ℤ} (hs : Double.Closest s n)
      (hs' : Double.Closest s' n'), Double.decimal s n = Double.decimal s' n' →
      decimal negative s n hs = decimal negative s' n' hs' := by
    intro negative s s' n n' hs hs' hdecimal
    obtain ⟨rfl, rfl⟩ := decimal_injective hs.reduced hs'.reduced hdecimal
    rfl
  match x, y with
  | zero, zero => rfl
  | zero, decimal true s n hs =>
    rw [value_negative, value] at h
    linarith [decimal_pos hs.reduced n]
  | zero, decimal false s n hs =>
    rw [value_positive, value] at h
    linarith [decimal_pos hs.reduced n]
  | decimal true s n hs, zero =>
    rw [value_negative, value] at h
    linarith [decimal_pos hs.reduced n]
  | decimal false s n hs, zero =>
    rw [value_positive, value] at h
    linarith [decimal_pos hs.reduced n]
  | decimal true s n hs, decimal false s' n' hs' =>
    rw [value_negative, value_positive] at h
    linarith [decimal_pos hs.reduced n, decimal_pos hs'.reduced n']
  | decimal false s n hs, decimal true s' n' hs' =>
    rw [value_negative, value_positive] at h
    linarith [decimal_pos hs.reduced n, decimal_pos hs'.reduced n']
  | decimal true s n hs, decimal true s' n' hs' =>
    rw [value_negative, value_negative] at h
    exact hsame hs hs' (neg_inj.mp h)
  | decimal false s n hs, decimal false s' n' hs' =>
    rw [value_positive, value_positive] at h
    exact hsame hs hs' h

theorem toText_injective {x y : JsNumber} (h : x.toText = y.toText) : x = y := by
  apply value_injective
  rw [← numeralValue_toText, ← numeralValue_toText, h]

end Reading

section Characters

def isNumeral (c : Char) : Bool := c.isDigit || c == '-' || c == '+' || c == '.' || c == 'e'

theorem isNumeral_of_isDigit {c : Char} (h : c.isDigit) : isNumeral c := by
  simp [isNumeral, h]

theorem isNumeral_of_mem_exponentText {n : ℤ} {c : Char} (h : c ∈ exponentText n) :
    isNumeral c := by
  unfold exponentText at h
  rcases List.mem_cons.mp h with rfl | h
  · decide
  · rcases List.mem_cons.mp h with rfl | h
    · split_ifs <;> decide
    · exact isNumeral_of_isDigit (isDigit_of_mem_digits h)

theorem isNumeral_of_mem_magnitudeText {s : ℕ} {n : ℤ} {c : Char} (h : c ∈ magnitudeText s n) :
    isNumeral c := by
  have hdigit : c ∈ digits s → isNumeral c := fun hc =>
    isNumeral_of_isDigit (isDigit_of_mem_digits hc)
  have hzero : ∀ a, c ∈ List.replicate a '0' → isNumeral c := fun a hc =>
    isNumeral_of_isDigit (isDigit_zeros a c hc)
  unfold magnitudeText positional at h
  split_ifs at h
  · exact (List.mem_append.mp h).elim hdigit (hzero _)
  · rcases List.mem_append.mp h with h | h
    · exact hdigit (List.mem_of_mem_take h)
    · rcases List.mem_cons.mp h with rfl | h
      · decide
      · exact hdigit (List.mem_of_mem_drop h)
  · rcases List.mem_cons.mp h with rfl | h
    · decide
    · rcases List.mem_cons.mp h with rfl | h
      · decide
      · exact (List.mem_append.mp h).elim (hzero _) hdigit
  · exact (List.mem_append.mp h).elim hdigit isNumeral_of_mem_exponentText
  · rcases List.mem_append.mp h with h | h
    · exact hdigit (List.mem_of_mem_take h)
    · rcases List.mem_cons.mp h with rfl | h
      · decide
      · exact (List.mem_append.mp h).elim (fun h => hdigit (List.mem_of_mem_drop h))
          isNumeral_of_mem_exponentText

theorem isNumeral_of_mem_toText {x : JsNumber} {c : Char} (h : c ∈ x.toText) : isNumeral c := by
  cases x with
  | zero =>
    rw [toText, List.mem_singleton] at h
    rw [h]
    decide
  | decimal negative s n closest =>
    rcases List.mem_append.mp h with h | h
    · cases negative with
      | true =>
        rw [if_pos rfl, List.mem_singleton] at h
        rw [h]
        decide
      | false => exact absurd h List.not_mem_nil
    · exact isNumeral_of_mem_magnitudeText h

theorem toText_ne_nil (x : JsNumber) : x.toText ≠ [] := by
  cases x with
  | zero => exact List.cons_ne_nil _ _
  | decimal negative s n closest =>
    obtain ⟨c, cs, htext, _⟩ := magnitudeText_head s n
    simp [toText, htext]

end Characters

end JsNumber

end RustExperiments.Lib
