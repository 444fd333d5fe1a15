/- module: RustExperiments/Lib/Lines
   digest: Texts as lists of lines, and properties of each line in the light of those before it. -/

import Mathlib.Data.List.Induction
import RustExperiments.Lib.Json

set_option autoImplicit false
set_option relaxedAutoImplicit false

namespace RustExperiments.Lib

section Text

def behind : List Char → List Char → Option (List Char)
  | [], cs => some cs
  | _ :: _, [] => none
  | f :: front, c :: cs => if f = c then behind front cs else none

@[simp] theorem behind_append (front cs : List Char) : behind front (front ++ cs) = some cs := by
  induction front with
  | nil => rfl
  | cons f front ih => rw [List.cons_append, behind, if_pos rfl, ih]

/-- The text of these lines, each of them with its line break. -/
def textOf (lines : List (List Char)) : List Char := lines.flatMap fun line => line ++ ['\n']

@[simp] theorem textOf_nil : textOf [] = [] := rfl

@[simp] theorem textOf_append (ls ls' : List (List Char)) :
    textOf (ls ++ ls') = textOf ls ++ textOf ls' :=
  List.flatMap_append

@[simp] theorem textOf_cons (line : List Char) (ls : List (List Char)) :
    textOf (line :: ls) = line ++ '\n' :: textOf ls := by
  simp [textOf]

theorem splitOn_textOf {lines : List (List Char)} (h : ∀ line ∈ lines, '\n' ∉ line) :
    (textOf lines).splitOn '\n' = lines ++ [[]] := by
  induction lines with
  | nil => rfl
  | cons line lines ih =>
    rw [textOf_cons, List.splitOn_append_cons_self_of_not_mem (h line List.mem_cons_self),
      ih fun l hl => h l (List.mem_cons_of_mem line hl), List.cons_append]

end Text

section Sequences

variable {α : Type}

/-- Every entry stands in this relation to the list of the entries before it. -/
def EachAfter (R : List α → α → Prop) (xs : List α) : Prop :=
  ∀ before x after, xs = before ++ x :: after → R before x

theorem eachAfter_nil (R : List α → α → Prop) : EachAfter R [] := by
  intro before x after h
  simp at h

theorem eachAfter_concat_iff {R : List α → α → Prop} {xs : List α} {x : α} :
    EachAfter R (xs ++ [x]) ↔ EachAfter R xs ∧ R xs x := by
  constructor
  · intro h
    refine ⟨fun before y after hxs => h before y (after ++ [x]) (by simp [hxs]), ?_⟩
    exact h xs x [] rfl
  · rintro ⟨hxs, hx⟩ before y after h
    rcases List.eq_nil_or_concat' after with rfl | ⟨after, z, rfl⟩
    · obtain ⟨rfl, hlast⟩ := List.append_inj' h rfl
      obtain rfl := List.singleton_injective hlast
      exact hx
    · rw [← List.cons_append, ← List.append_assoc] at h
      exact hxs before y after (List.append_inj' h rfl).1

theorem eachAfter_pair_iff {R : List α → α → Prop} {xs : List α} {x y : α} :
    EachAfter R (xs ++ [x, y]) ↔ EachAfter R xs ∧ R xs x ∧ R (xs ++ [x]) y := by
  have hsplit : xs ++ [x, y] = xs ++ [x] ++ [y] := by simp
  rw [hsplit, eachAfter_concat_iff, eachAfter_concat_iff, and_assoc]

theorem countP_le_one {p : α → Bool} {xs : List α}
    (h : EachAfter (fun before x => p x → ∀ y ∈ before, ¬ p y) xs) : xs.countP p ≤ 1 := by
  induction xs using List.reverseRecOn with
  | nil => simp
  | append_singleton xs x ih =>
    obtain ⟨hxs, hx⟩ := eachAfter_concat_iff.mp h
    rw [List.countP_append, List.countP_singleton]
    split_ifs with hpx
    · have hnone : xs.countP p = 0 := List.countP_eq_zero.mpr (hx hpx)
      omega
    · exact ih hxs

end Sequences

end RustExperiments.Lib
