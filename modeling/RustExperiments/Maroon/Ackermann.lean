/- module: RustExperiments/Maroon/Ackermann
   digest: The asynchronous Ackermann function writes the call tree of the reference recursion. -/

import Mathlib.Computability.Ackermann
import RustExperiments.Maroon.Task

set_option autoImplicit false
set_option relaxedAutoImplicit false

namespace RustExperiments.Maroon

open RustExperiments.Lib

/-- The reference implementation, over unbounded numbers. -/
def ackermann : ℕ → ℕ → ℕ
  | 0, n => n + 1
  | m + 1, 0 => ackermann m 1
  | m + 1, n + 1 => ackermann m (ackermann (m + 1) n)
termination_by m n => (m, n)

theorem ackermann_eq_ack (m n : ℕ) : ackermann m n = ack m n := by
  induction m, n using ackermann.induct with
  | case1 n => rw [ackermann, ack_zero]
  | case2 m ih => rw [ackermann, ih, ack_succ_zero]
  | case3 m n ihInner ihOuter => rw [ackermann, ihOuter, ihInner, ack_succ_succ]

theorem le_ackermann_left (m n : ℕ) : m ≤ ackermann m n := by
  rw [ackermann_eq_ack]
  exact (lt_ack_left m n).le

theorem le_ackermann_right (m n : ℕ) : n ≤ ackermann m n := by
  rw [ackermann_eq_ack]
  exact (lt_ack_right m n).le

/-- How a call of `async_ack` is left without a result. -/
inductive AckExit where
  /-- the `Err` of a `write_text` that the `?` hands on -/
  | err (error : String)
  | panicked (panic : Panic)
  deriving DecidableEq, Repr

/-- Code that writes lines and can be left early; `none` is a call that has not come to its end. -/
abbrev AckM := ExceptT AckExit (StateT (List String) Option)

/-- `write_text`: its outcome depends on how many lines were written before. -/
def writeText (writer : ℕ → Except String Unit) (text : String) : AckM Unit := do
  let written ← get
  match writer written.length with
  | .ok () => set (written ++ [text])
  | .error e => throw (.err e)

/-- An operation with the exact value `v` in integers where `fit` says what becomes of it. -/
def ackArith (fit : ℤ → Option ℤ) (op : Arith) (v : ℤ) : AckM ℤ :=
  match fit v with
  | some v => pure v
  | none => throw (.panicked (.overflow op))

/-- `" ".repeat(indent)`. -/
def spaces (indent : ℕ) : String := String.ofList (List.replicate indent ' ')

def openingLine (indent : ℕ) (m n : ℤ) : String := s!"{spaces indent}ack({m},{n}) ..."

def closingLine (indent : ℕ) (m n r : ℤ) : String := s!"{spaces indent}ack({m},{n}) = {r}"

/-- `async_ack` down to `fuel` nested calls, without its sleeps. -/
def asyncAck (fit : ℤ → Option ℤ) (writer : ℕ → Except String Unit) : ℕ → ℤ → ℤ → ℕ → AckM ℤ
  | 0, _, _, _ => ExceptT.mk fun _ => none
  | fuel + 1, m, n, indent =>
    if m = 0 then do
      let r ← ackArith fit .add (n + 1)
      writeText writer (closingLine indent m n r)
      pure r
    else do
      writeText writer (openingLine indent m n)
      -- the branch `(0, n)` of the match cannot be taken here
      let r ←
        if n = 0 then do
          let m' ← ackArith fit .sub (m - 1)
          asyncAck fit writer fuel m' 1 (indent + 2)
        else do
          let n' ← ackArith fit .sub (n - 1)
          let innerResult ← asyncAck fit writer fuel m n' (indent + 2)
          let m' ← ackArith fit .sub (m - 1)
          asyncAck fit writer fuel m' innerResult (indent + 2)
      writeText writer (closingLine indent m n r)
      pure r

/-- The lines of the call tree of the reference recursion. -/
def ackLines : ℕ → ℕ → ℕ → List String
  | 0, n, indent => [closingLine indent (0 : ℕ) n (ackermann 0 n)]
  | m + 1, 0, indent =>
    openingLine indent (m + 1 : ℕ) (0 : ℕ) :: (ackLines m 1 (indent + 2) ++
      [closingLine indent (m + 1 : ℕ) (0 : ℕ) (ackermann (m + 1) 0)])
  | m + 1, n + 1, indent =>
    openingLine indent (m + 1 : ℕ) (n + 1 : ℕ) :: (ackLines (m + 1) n (indent + 2) ++
      ackLines m (ackermann (m + 1) n) (indent + 2) ++
        [closingLine indent (m + 1 : ℕ) (n + 1 : ℕ) (ackermann (m + 1) (n + 1))])
termination_by m n => (m, n)

theorem ackLines_true (m n indent : ℕ) : ∀ line ∈ ackLines m n indent,
    ∃ (j x y : ℕ), line = openingLine j x y ∨ line = closingLine j x y (ackermann x y) := by
  induction m, n using ackermann.induct generalizing indent with
  | case1 n =>
    intro line hline
    rw [ackLines, List.mem_singleton] at hline
    exact ⟨indent, 0, n, Or.inr hline⟩
  | case2 m ih =>
    intro line hline
    rw [ackLines, List.mem_cons, List.mem_append, List.mem_singleton] at hline
    rcases hline with rfl | hcall | rfl
    · exact ⟨indent, m + 1, 0, Or.inl rfl⟩
    · exact ih (indent + 2) line hcall
    · exact ⟨indent, m + 1, 0, Or.inr rfl⟩
  | case3 m n ihInner ihOuter =>
    intro line hline
    rw [ackLines, List.mem_cons, List.mem_append, List.mem_append, List.mem_singleton] at hline
    rcases hline with rfl | (hinner | houter) | rfl
    · exact ⟨indent, m + 1, n + 1, Or.inl rfl⟩
    · exact ihInner (indent + 2) line hinner
    · exact ihOuter (indent + 2) line houter
    · exact ⟨indent, m + 1, n + 1, Or.inr rfl⟩

section Writing

variable {writer : ℕ → Except String Unit} {α β : Type} {written written' : List String}

theorem ackM_bind_ok {x : AckM α} {f : α → AckM β} {a : α}
    (h : x.run.run written = some (.ok a, written')) :
    (x >>= f).run.run written = (f a).run.run written' := by
  simp [ExceptT.run_bind, h]

theorem ackM_bind_error {x : AckM α} {f : α → AckM β} {e : AckExit}
    (h : x.run.run written = some (.error e, written')) :
    (x >>= f).run.run written = some (.error e, written') := by
  simp [ExceptT.run_bind, h]

theorem writeText_ok (text : String) (h : writer written.length = .ok ()) :
    (writeText writer text).run.run written = some (.ok (), written ++ [text]) := by
  rw [writeText, ackM_bind_ok (a := written) rfl]
  simp only [h]
  rfl

theorem writeText_error {e : String} (text : String) (h : writer written.length = .error e) :
    (writeText writer text).run.run written = some (.error (.err e), written) := by
  rw [writeText, ackM_bind_ok (a := written) rfl]
  simp only [h]
  rfl

theorem ackArith_ok {fit : ℤ → Option ℤ} {op : Arith} {v : ℤ} (h : fit v = some v) :
    ackArith fit op v = pure v := by
  rw [ackArith, h]

def writeAll (writer : ℕ → Except String Unit) : List String → AckM Unit
  | [] => pure ()
  | line :: lines => do
    writeText writer line
    writeAll writer lines

theorem writeAll_append (xs ys : List String) :
    writeAll writer (xs ++ ys) = (do writeAll writer xs; writeAll writer ys) := by
  induction xs with
  | nil => rw [List.nil_append, writeAll, pure_bind]
  | cons x xs ih => rw [List.cons_append, writeAll, writeAll, ih, bind_assoc]

theorem writeAll_singleton (line : String) : writeAll writer [line] = writeText writer line :=
  bind_pure _

theorem length_concat_add (line : String) (j : ℕ) :
    (written ++ [line]).length + j = written.length + (j + 1) := by
  rw [List.length_append, List.length_singleton, Nat.add_assoc, Nat.add_comm 1]

theorem writeAll_ok (lines : List String)
    (h : ∀ j < lines.length, writer (written.length + j) = .ok ()) :
    (writeAll writer lines).run.run written = some (.ok (), written ++ lines) := by
  induction lines generalizing written with
  | nil => rw [List.append_nil, writeAll]; rfl
  | cons line lines ih =>
    have hrest : ∀ j < lines.length, writer ((written ++ [line]).length + j) = .ok () := by
      intro j hj
      rw [length_concat_add]
      exact h (j + 1) (Nat.succ_lt_succ hj)
    rw [writeAll, ackM_bind_ok (writeText_ok line (h 0 (Nat.succ_pos _))), ih hrest,
      List.append_assoc, List.singleton_append]

theorem writeAll_error (lines : List String) {k : ℕ} (inside : k < lines.length) {e : String}
    (before : ∀ j < k, writer (written.length + j) = .ok ())
    (fails : writer (written.length + k) = .error e) :
    (writeAll writer lines).run.run written =
      some (.error (.err e), written ++ lines.take k) := by
  induction lines generalizing written k with
  | nil => exact absurd inside (Nat.not_lt_zero k)
  | cons line lines ih =>
    cases k with
    | zero =>
      rw [writeAll, ackM_bind_error (writeText_error line fails), List.take_zero, List.append_nil]
    | succ k =>
      have hbefore : ∀ j < k, writer ((written ++ [line]).length + j) = .ok () := by
        intro j hj
        rw [length_concat_add]
        exact before (j + 1) (Nat.succ_lt_succ hj)
      have hfails : writer ((written ++ [line]).length + k) = .error e := by
        rw [length_concat_add]
        exact fails
      rw [writeAll, ackM_bind_ok (writeText_ok line (before 0 (Nat.succ_pos k))),
        ih (Nat.lt_of_succ_lt_succ inside) hbefore hfails, List.take_succ_cons, List.append_assoc,
        List.singleton_append]

end Writing

/-- The call is the lines of its tree and then its value: the inner call before the outer one, which
takes its result. -/
theorem asyncAck_eq (fit : ℤ → Option ℤ) (m n : ℕ)
    (fits : ∀ v : ℕ, v ≤ ackermann m n → fit v = some (v : ℤ)) :
    ∃ depth, ∀ fuel ≥ depth, ∀ writer indent, asyncAck fit writer fuel m n indent = (do
      writeAll writer (ackLines m n indent)
      pure (ackermann m n : ℤ)) := by
  induction m, n using ackermann.induct with
  | case1 n =>
    refine ⟨1, fun fuel hfuel writer indent => ?_⟩
    obtain ⟨fuel, rfl⟩ := Nat.exists_eq_add_of_le' hfuel
    have hsum : ((n : ℤ) + 1) = (ackermann 0 n : ℤ) := by rw [ackermann]; push_cast; rfl
    rw [asyncAck, if_pos Nat.cast_zero, hsum, ackArith_ok (fits _ (le_refl _)), pure_bind,
      ackLines, writeAll_singleton]
  | case2 m ih =>
    have hvalue : ackermann (m + 1) 0 = ackermann m 1 := by rw [ackermann]
    obtain ⟨depth, hcall⟩ := ih fun v hv => fits v (hv.trans_eq hvalue.symm)
    refine ⟨depth + 1, fun fuel hfuel writer indent => ?_⟩
    obtain ⟨fuel, rfl⟩ : ∃ k, fuel = k + 1 := ⟨fuel - 1, by omega⟩
    have hm : fit (((m + 1 : ℕ) : ℤ) - 1) = some (((m + 1 : ℕ) : ℤ) - 1) := by
      rw [Nat.cast_succ, add_sub_cancel_right]
      exact fits m (le_ackermann_left (m + 1) 0 |>.trans' (Nat.le_succ m))
    have hsub : (((m + 1 : ℕ) : ℤ) - 1) = (m : ℕ) := by rw [Nat.cast_succ, add_sub_cancel_right]
    have hone := hcall fuel (by omega) writer (indent + 2)
    rw [Nat.cast_one] at hone
    rw [asyncAck, if_neg (Nat.cast_ne_zero.mpr (Nat.succ_ne_zero m)), if_pos Nat.cast_zero,
      ackArith_ok hm, pure_bind, hsub, hone, ackLines, writeAll, writeAll_append,
      writeAll_singleton, hvalue]
    simp only [bind_assoc, pure_bind]
  | case3 m n ihInner ihOuter =>
    have hvalue : ackermann (m + 1) (n + 1) = ackermann m (ackermann (m + 1) n) := by
      rw [ackermann]
    have hmono : ackermann (m + 1) n ≤ ackermann (m + 1) (n + 1) := by
      rw [ackermann_eq_ack, ackermann_eq_ack]
      exact ack_mono_right (m + 1) (Nat.le_succ n)
    obtain ⟨depth₁, hinner⟩ := ihInner fun v hv => fits v (hv.trans hmono)
    obtain ⟨depth₂, houter⟩ := ihOuter fun v hv => fits v (hv.trans_eq hvalue.symm)
    refine ⟨max depth₁ depth₂ + 1, fun fuel hfuel writer indent => ?_⟩
    obtain ⟨fuel, rfl⟩ : ∃ k, fuel = k + 1 := ⟨fuel - 1, by omega⟩
    have hm : fit (((m + 1 : ℕ) : ℤ) - 1) = some (((m + 1 : ℕ) : ℤ) - 1) := by
      rw [Nat.cast_succ, add_sub_cancel_right]
      exact fits m (le_ackermann_left (m + 1) (n + 1) |>.trans' (Nat.le_succ m))
    have hn : fit (((n + 1 : ℕ) : ℤ) - 1) = some (((n + 1 : ℕ) : ℤ) - 1) := by
      rw [Nat.cast_succ, add_sub_cancel_right]
      exact fits n (le_ackermann_right (m + 1) (n + 1) |>.trans' (Nat.le_succ n))
    have hsub (k : ℕ) : (((k + 1 : ℕ) : ℤ) - 1) = (k : ℕ) := by
      rw [Nat.cast_succ, add_sub_cancel_right]
    rw [asyncAck, if_neg (Nat.cast_ne_zero.mpr (Nat.succ_ne_zero m)),
      if_neg (Nat.cast_ne_zero.mpr (Nat.succ_ne_zero n)), ackArith_ok hn, pure_bind, hsub n,
      hinner fuel (by omega) writer (indent + 2), ackArith_ok hm, hsub m, ackLines, writeAll,
      writeAll_append, writeAll_append, writeAll_singleton, hvalue]
    simp only [bind_assoc, pure_bind, houter fuel (by omega) writer (indent + 2)]

/-- Over unbounded integers the asynchronous function comes to its end: with a writer that takes the
lines of the call tree it returns what the reference function does, and where the writer fails at
one of them it returns that error after exactly the lines before. -/
theorem async_ack_refines (m n indent : ℕ) :
    (∃ depth, ∀ fuel ≥ depth, ∀ writer,
      ((∀ k < (ackLines m n indent).length, writer k = .ok ()) →
        (asyncAck some writer fuel m n indent).run.run [] =
          some (.ok (ackermann m n : ℤ), ackLines m n indent)) ∧
      ∀ k < (ackLines m n indent).length, ∀ e, (∀ j < k, writer j = .ok ()) →
        writer k = .error e →
          (asyncAck some writer fuel m n indent).run.run [] =
            some (.error (.err e), (ackLines m n indent).take k)) ∧
    ∀ line ∈ ackLines m n indent, ∃ (j x y : ℕ),
      line = openingLine j x y ∨ line = closingLine j x y (ackermann x y) := by
  obtain ⟨depth, hcall⟩ := asyncAck_eq some m n fun _ _ => rfl
  refine ⟨⟨depth, fun fuel hfuel writer => ⟨fun takes => ?_, fun k inside e before fails => ?_⟩⟩,
    ackLines_true m n indent⟩
  · have hlines : (writeAll writer (ackLines m n indent)).run.run [] =
        some (.ok (), [] ++ ackLines m n indent) :=
      writeAll_ok _ (by simpa only [List.length_nil, Nat.zero_add] using takes)
    rw [hcall fuel hfuel writer indent, ackM_bind_ok hlines]
    rfl
  · have hlines : (writeAll writer (ackLines m n indent)).run.run [] =
        some (.error (.err e), [] ++ (ackLines m n indent).take k) :=
      writeAll_error _ inside (by simpa only [List.length_nil, Nat.zero_add] using before)
        (by simpa only [List.length_nil, Nat.zero_add] using fails)
    rw [hcall fuel hfuel writer indent, ackM_bind_error hlines]
    rfl

example : (asyncAck some (fun _ => .ok ()) 4 1 1 0).run.run [] = some (.ok 3,
    ["ack(1,1) ...", "  ack(1,0) ...", "    ack(0,1) = 2", "  ack(1,0) = 2", "  ack(0,2) = 3",
      "ack(1,1) = 3"]) := by
  decide +kernel

end RustExperiments.Maroon
