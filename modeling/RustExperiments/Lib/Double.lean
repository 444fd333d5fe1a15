/- module: RustExperiments/Lib/Double
   digest: The digits by which ECMAScript and Rust write a binary64 number. -/

import Mathlib.Algebra.Field.Rat
import Mathlib.Algebra.Order.Field.Power
import Mathlib.Algebra.Order.Ring.Rat
import Mathlib.Data.List.Basic
import Mathlib.Tactic.IntervalCases
import Mathlib.Tactic.NormNum

set_option autoImplicit false
set_option relaxedAutoImplicit false

namespace RustExperiments.Lib.Double

section Digits

def digits (s : ℕ) : List Char := Nat.toDigits 10 s

theorem isDigit_of_mem_digits {s : ℕ} {c : Char} (h : c ∈ digits s) : c.isDigit :=
  Nat.isDigit_of_mem_toDigits (by decide) (by decide) h

theorem ofDigitChars_digits (s : ℕ) : Nat.ofDigitChars 10 (digits s) 0 = s :=
  Nat.ofDigitChars_ten_toDigits

theorem digits_ne_nil (s : ℕ) : digits s ≠ [] := Nat.toDigits_ne_nil

theorem isDigit_zeros (a : ℕ) : ∀ c ∈ List.replicate a '0', c.isDigit := by
  intro c hc
  rw [List.eq_of_mem_replicate hc]
  decide

theorem getLast_digits {s : ℕ} (h : s % 10 ≠ 0) : (digits s).getLast? ≠ some '0' := by
  have hdigit : ∀ d < 10, d ≠ 0 → d.digitChar ≠ '0' := by decide
  have hlast : (digits s).getLast? = some (s % 10).digitChar := by
    rcases lt_or_ge s 10 with hlt | hge
    · rw [digits, Nat.toDigits_of_lt_base hlt, Nat.mod_eq_of_lt hlt]
      rfl
    · rw [digits, Nat.toDigits_of_base_le (by decide) hge, List.getLast?_concat]
  rw [hlast]
  intro heq
  exact hdigit (s % 10) (Nat.mod_lt s (by decide)) h (Option.some.inj heq)

end Digits

section Rounding

/-- The number with the digits of `s`, the first `n` of them in front of the point. -/
def decimal (s : ℕ) (n : ℤ) : ℚ := s * 10 ^ (n - (digits s).length)

/-- The double that it is rounded to. -/
def nearest (s : ℕ) (n : ℤ) : Float.Model := Float.Model.ofScientific s (n - (digits s).length)

/-- What a positive double stands for, if it is finite. -/
def magnitude (x : Float.Model) : Option ℚ :=
  match x.unpack with
  | .finite .positive m e _ => some (m * 2 ^ e)
  | _ => none

/-- No fewer digits are rounded to the same double. -/
structure Shortest (s : ℕ) (n : ℤ) : Prop where
  reduced : s % 10 ≠ 0
  positive : (magnitude (nearest s n)).isSome
  short : ∀ s' n', nearest s' n' = nearest s n → (digits s).length ≤ (digits s').length

/-- `Number::toString` takes the closest ones of the shortest, and the even ones of two. -/
structure Closest (s : ℕ) (n : ℤ) : Prop extends Shortest s n where
  close : ∀ s' n' v, nearest s' n' = nearest s n → (digits s').length = (digits s).length →
    magnitude (nearest s n) = some v → |decimal s n - v| ≤ |decimal s' n' - v|
  even : ∀ s' n' v, nearest s' n' = nearest s n → (digits s').length = (digits s).length →
    magnitude (nearest s n) = some v → |decimal s n - v| = |decimal s' n' - v| →
      decimal s' n' ≠ decimal s n → s % 2 = 0

theorem closest_digit {d : ℕ} (pos : 0 < d) (lt : d < 10) : Closest d 1 := by
  have hdigit : magnitude (nearest d 1) = some (d : ℚ) ∧ decimal d 1 = d ∧
      (digits d).length = 1 := by
    interval_cases d <;> decide +kernel
  obtain ⟨hexact, hdecimal, hlength⟩ := hdigit
  have hvalue : ∀ v, magnitude (nearest d 1) = some v → decimal d 1 = v := by
    intro v hv
    rw [hexact] at hv
    rw [hdecimal, Option.some.inj hv]
  refine ⟨⟨by omega, by rw [hexact]; rfl, fun s' n' _ => ?_⟩, ?_, ?_⟩
  · rw [hlength]
    exact Nat.length_toDigits_pos
  · intro s' n' v _ _ hv
    rw [hvalue v hv, sub_self, abs_zero]
    exact abs_nonneg _
  · intro s' n' v _ _ hv heq hne
    rw [hvalue v hv, sub_self, abs_zero] at heq
    have hsame := sub_eq_zero.mp (abs_eq_zero.mp heq.symm)
    exact absurd (hsame.trans (hvalue v hv).symm) hne

/-- An odd number of 54 bits is no double: the even one next to it is closer. -/
example : ¬ Closest 9007199254740993 16 := by
  intro h
  have hodd : (digits 9007199254740993).length = 16 := by simp [digits, Nat.toDigits_eq_if]
  have heven : (digits 9007199254740992).length = 16 := by simp [digits, Nat.toDigits_eq_if]
  have hinteger : ∀ s, (digits s).length = 16 → nearest s 16 = .ofScientific s 0 := by
    intro s hs
    rw [nearest, hs]
    rfl
  have hsame : nearest 9007199254740992 16 = nearest 9007199254740993 16 := by
    rw [hinteger _ hodd, hinteger _ heven]
    decide +kernel
  have hvalue : magnitude (nearest 9007199254740993 16) = some 9007199254740992 := by
    rw [hinteger _ hodd]
    decide +kernel
  have hclose := h.close _ _ _ hsame (heven.trans hodd.symm) hvalue
  norm_num [decimal, hodd, heven] at hclose

/-- Nor is what overflows. -/
example : magnitude (nearest 1 310) = none := by decide +kernel

end Rounding

section Positional

/-- Digits with a point among them or zeros around them, without an exponent. -/
def positional (s : ℕ) (n : ℤ) : List Char :=
  if (digits s).length ≤ n then digits s ++ List.replicate (n - (digits s).length).toNat '0'
  else if 0 < n then (digits s).take n.toNat ++ '.' :: (digits s).drop n.toNat
  else '0' :: '.' :: (List.replicate (-n).toNat '0' ++ digits s)

/-- What `Display` writes for a finite `f64`. -/
inductive Display : Float.Model → List Char → Prop where
  | zero : Display (.ofNat 0) ['0']
  | negativeZero : Display (-.ofNat 0) ['-', '0']
  | positive {s : ℕ} {n : ℤ} (short : Shortest s n) : Display (nearest s n) (positional s n)
  | negative {s : ℕ} {n : ℤ} (short : Shortest s n) :
      Display (-nearest s n) ('-' :: positional s n)

/-- No exponent, and no zeros at the end of a fraction. -/
structure Plain (text : List Char) : Prop where
  chars : ∀ c ∈ text, c.isDigit ∨ c = '-' ∨ c = '.'
  trimmed : '.' ∈ text → text.getLast? ≠ some '0'

theorem point_not_digits {cs : List Char} (h : ∀ c ∈ cs, c.isDigit) : '.' ∉ cs := fun hmem =>
  absurd (h '.' hmem) (by decide)

theorem plain_positional {s : ℕ} (reduced : s % 10 ≠ 0) (n : ℤ) : Plain (positional s n) := by
  have hdigits : ∀ c ∈ digits s, c.isDigit := fun c hc => isDigit_of_mem_digits hc
  unfold positional
  split_ifs with hwhole hpoint
  · have hall : ∀ c ∈ digits s ++ List.replicate (n - (digits s).length).toNat '0', c.isDigit :=
      fun c hc => (List.mem_append.mp hc).elim (hdigits c) (isDigit_zeros _ c)
    exact ⟨fun c hc => Or.inl (hall c hc), fun hmem => absurd hmem (point_not_digits hall)⟩
  · refine ⟨fun c hc => ?_, fun _ => ?_⟩
    · rcases List.mem_append.mp hc with hc | hc
      · exact Or.inl (hdigits c (List.mem_of_mem_take hc))
      · rcases List.mem_cons.mp hc with rfl | hc
        · exact Or.inr (Or.inr rfl)
        · exact Or.inl (hdigits c (List.mem_of_mem_drop hc))
    · have hrest : (digits s).drop n.toNat ≠ [] := by
        rw [ne_eq, List.drop_eq_nil_iff]
        omega
      rw [List.getLast?_append_of_ne_nil _ (List.cons_ne_nil _ _),
        List.getLast?_cons_of_ne_nil hrest, List.getLast?_drop, if_neg (by omega)]
      exact getLast_digits reduced
  · refine ⟨fun c hc => ?_, fun _ => ?_⟩
    · rcases List.mem_cons.mp hc with rfl | hc
      · exact Or.inl (by decide)
      rcases List.mem_cons.mp hc with rfl | hc
      · exact Or.inr (Or.inr rfl)
      · exact Or.inl ((List.mem_append.mp hc).elim (isDigit_zeros _ c) (hdigits c))
    · have hlast : ('0' :: '.' :: (List.replicate (-n).toNat '0' ++ digits s)).getLast? =
          (digits s).getLast? := by
        rw [← List.cons_append, ← List.cons_append,
          List.getLast?_append_of_ne_nil _ (digits_ne_nil s)]
      rw [hlast]
      exact getLast_digits reduced

theorem Display.plain {x : Float.Model} {text : List Char} (h : Display x text) : Plain text := by
  cases h with
  | zero => exact ⟨by simp, by simp⟩
  | negativeZero => exact ⟨by simp, by simp⟩
  | positive short => exact plain_positional short.reduced _
  | @negative s n short =>
    obtain ⟨hchars, htrimmed⟩ := plain_positional short.reduced n
    refine ⟨fun c hc => ?_, fun hmem => ?_⟩
    · rcases List.mem_cons.mp hc with rfl | hc
      · exact Or.inr (Or.inl rfl)
      · exact hchars c hc
    · have hmem' : '.' ∈ positional s n := (List.mem_cons.mp hmem).resolve_left (by decide)
      rw [List.getLast?_cons_of_ne_nil (List.ne_nil_of_mem hmem')]
      exact htrimmed hmem'

end Positional

end RustExperiments.Lib.Double
