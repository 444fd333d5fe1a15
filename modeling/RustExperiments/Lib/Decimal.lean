/- module: RustExperiments/Lib/Decimal
   digest: Decimal numerals contain digits only, so a dash after one of them ends it. -/

import Mathlib.Data.List.Basic

set_option autoImplicit false
set_option relaxedAutoImplicit false

namespace RustExperiments.Lib

theorem toString_toList (n : ℕ) : (toString n).toList = Nat.toDigits 10 n := by
  simp [toString, Nat.repr]

theorem dash_not_mem_decimal (n : ℕ) : '-' ∉ (toString n).toList := by
  intro h
  rw [toString_toList] at h
  have hdigit := Nat.isDigit_of_mem_toDigits (by decide) (by decide) h
  exact absurd hdigit (by decide)

theorem takeWhile_before {a : Char} {xs rest : List Char} (h : a ∉ xs) :
    (xs ++ a :: rest).takeWhile (· != a) = xs := by
  induction xs with
  | nil => simp
  | cons x xs ih =>
    rw [List.mem_cons, not_or] at h
    simp [Ne.symm h.1, ih h.2]

theorem decimal_dash_injective {i j : ℕ} {p q : String}
    (h : toString i ++ "-" ++ p = toString j ++ "-" ++ q) : i = j := by
  have hlists := congrArg (fun s => s.toList.takeWhile (· != '-')) h
  simp only [String.toList_append, List.append_assoc] at hlists
  have hdash : "-".toList = ['-'] := rfl
  rw [hdash, List.singleton_append, List.singleton_append,
    takeWhile_before (dash_not_mem_decimal i), takeWhile_before (dash_not_mem_decimal j),
    toString_toList, toString_toList] at hlists
  rw [← Nat.ofDigitChars_ten_toDigits (n := i), hlists, Nat.ofDigitChars_ten_toDigits]

end RustExperiments.Lib
