/- module: RustExperiments/Maroon/Frames
   digest: Stacks that split into return frames pass the extraction loop and the stack validator. -/

import Mathlib.Data.List.Induction
import RustExperiments.Maroon.Solo

set_option autoImplicit false
set_option relaxedAutoImplicit false

namespace RustExperiments.Maroon

open RustExperiments.Lib

/-- A stack that splits down to the bottom into `Retrn` frames, each of them with the values
that `ok` asks for beneath it. -/
inductive Frames (ok : MaroonTaskState → List MaroonTaskStackEntryValue → Prop) :
    MaroonTaskStack → Prop where
  | nil : Frames ok []
  | push {stk : MaroonTaskStack} {r : MaroonTaskState} {vals : List MaroonTaskStackEntryValue}
      (below : Frames ok stk) (frame : ok r vals) :
      Frames ok (stk ++ vals.map .value ++ [.retrn r])

theorem Frames.mono {ok ok' : MaroonTaskState → List MaroonTaskStackEntryValue → Prop}
    (h : ∀ r vals, ok r vals → ok' r vals) {stk : MaroonTaskStack} (f : Frames ok stk) :
    Frames ok' stk := by
  induction f with
  | nil => exact .nil
  | push _ frame ih => exact .push ih (h _ _ frame)

theorem Frames.pushValue {ok : MaroonTaskState → List MaroonTaskStackEntryValue → Prop}
    {stk : MaroonTaskStack} {r : MaroonTaskState} {v : MaroonTaskStackEntryValue}
    (below : Frames ok stk) (frame : ok r [v]) : Frames ok (stk ++ [.value v, .retrn r]) := by
  simpa using Frames.push below frame

section Extraction

theorem popState_concat (base : MaroonTaskStack) (s : MaroonTaskState) :
    popState (base ++ [.state s]) = .ok (s, base) := by
  simp [popState]

/-- The extraction loop hands the local variables over in the order of `vec.pop()`. -/
theorem popVars_concat (base : MaroonTaskStack) (vals : List MaroonTaskStackEntryValue) :
    popVars vals.length (base ++ vals.map .value) = .ok (vals.reverse, base) := by
  induction vals using List.reverseRecOn generalizing base with
  | nil => simp [popVars]
  | append_singleton vals v ih =>
    have hstack : base ++ (vals ++ [v]).map .value =
        (base ++ vals.map .value) ++ [MaroonTaskStackEntry.value v] := by simp
    rw [hstack, List.length_append, List.length_singleton, popVars, vecPop_concat]
    simp [ih base]

end Extraction

section Validator

def FrameCounted (r : MaroonTaskState) (vals : List MaroonTaskStackEntryValue) : Prop :=
  vals.length = maroonTaskStateReturnLocalVarsCount r

theorem validateValues_ok (base above : MaroonTaskStack) (vals : List MaroonTaskStackEntryValue) :
    validateValues (base ++ vals.map .value ++ above) vals.length (base.length + vals.length) =
      .ok base.length := by
  induction vals using List.reverseRecOn generalizing above with
  | nil => simp [validateValues]
  | append_singleton vals v ih =>
    have hstack : base ++ (vals ++ [v]).map .value ++ above =
        base ++ vals.map .value ++ (MaroonTaskStackEntry.value v :: above) := by simp
    have hget : (base ++ vals.map .value ++ (MaroonTaskStackEntry.value v :: above))[base.length +
        vals.length]? = some (.value v) := by
      rw [List.getElem?_append_right (by simp)]
      simp
    rw [hstack, List.length_append, List.length_singleton, validateValues, ← Nat.add_assoc,
      Nat.add_sub_cancel, hget]
    exact ih _

theorem validateFrom_entry (base above : MaroonTaskStack) (e : MaroonTaskStackEntry)
    (vals : List MaroonTaskStackEntryValue)
    (entry : validateEntry (base ++ vals.map .value ++ [e] ++ above) (base.length + vals.length) =
      .ok vals.length)
    (below : base ≠ [] → validateFrom (base ++ vals.map .value ++ [e] ++ above)
      (base.length - 1) = .ok ()) :
    validateFrom (base ++ vals.map .value ++ [e] ++ above) (base.length + vals.length) = .ok () := by
  rw [validateFrom]
  split_ifs with hpos
  · rw [entry]
    have hvalues := validateValues_ok base ([e] ++ above) vals
    rw [← List.append_assoc] at hvalues
    simp only [hvalues, Nat.add_sub_cancel, gt_iff_lt]
    rw [if_neg (by omega)]
    split_ifs with hzero
    · rfl
    · exact below (fun h => hzero (by simp [h]))
  · rfl

theorem validateFrom_frames {base : MaroonTaskStack} (f : Frames FrameCounted base)
    (above : MaroonTaskStack) (nonempty : base ≠ []) :
    validateFrom (base ++ above) (base.length - 1) = .ok () := by
  induction f generalizing above with
  | nil => exact absurd rfl nonempty
  | @push stk r vals _ frame ih =>
    have hlen : (stk ++ vals.map MaroonTaskStackEntry.value ++
        [MaroonTaskStackEntry.retrn r]).length - 1 = stk.length + vals.length := by simp
    rw [hlen]
    refine validateFrom_entry stk above _ vals ?_ fun h => ?_
    · rw [validateEntry, List.append_assoc, List.getElem?_append_right (by simp)]
      simp [frame.symm]
    · simpa using ih (vals.map MaroonTaskStackEntry.value ++ .retrn r :: above) h

theorem debugValidate_ok (p : Profile) {base : MaroonTaskStack} (f : Frames FrameCounted base)
    {s : MaroonTaskState} {vals : List MaroonTaskStackEntryValue}
    (counted : vals.length = maroonTaskStateLocalVarsCount s) :
    debugValidateMaroonStack p (base ++ vals.map .value ++ [.state s]) = .ok () := by
  unfold debugValidateMaroonStack
  split_ifs with _ hempty
  · simp at hempty
  · have hlen : (base ++ vals.map MaroonTaskStackEntry.value ++
        [MaroonTaskStackEntry.state s]).length - 1 = base.length + vals.length := by simp
    have hmain := validateFrom_entry base [] (.state s) vals (by
      rw [validateEntry, List.append_assoc, List.getElem?_append_right (by simp)]
      simp [counted.symm]) (fun h => by
        simpa using validateFrom_frames f (vals.map MaroonTaskStackEntry.value ++ [.state s]) h)
    rw [hlen]
    simpa using hmain
  · rfl

end Validator

end RustExperiments.Maroon
