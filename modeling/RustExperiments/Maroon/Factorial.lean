/- module: RustExperiments/Maroon/Factorial
   digest: The recursion of the factorial task over any stack beneath it: values, writes and times. -/

import RustExperiments.Maroon.Trail
import Mathlib.Algebra.BigOperators.Intervals
import Mathlib.Data.Nat.Factorial.Basic
import Mathlib.Tactic.Ring

set_option autoImplicit false
set_option relaxedAutoImplicit false

namespace RustExperiments.Maroon

open RustExperiments.Lib

/-- Steps from one top of a stack to another over the stacks `ok`, which stay beneath: the same
steps, writing the same at the same times, whatever the stack beneath is. -/
inductive Passes (p : Profile) (heap : MaroonTaskHeap) (ok : MaroonTaskStack → Prop) :
    LogicalTimeAbsoluteMs → MaroonTaskStack → List (LogicalTimeAbsoluteMs × String) →
    LogicalTimeAbsoluteMs → MaroonTaskStack → Prop where
  | rest (ts : LogicalTimeAbsoluteMs) (top : MaroonTaskStack) : Passes p heap ok ts top [] ts top
  | step {ts mid last : LogicalTimeAbsoluteMs} {top topMid topLast : MaroonTaskStack}
      {written : Option String} {outputs : List (LogicalTimeAbsoluteMs × String)}
      (first : ∀ base, ok base → stepTask p ⟨ts, base ++ top, heap⟩ =
        .ok (.requeued written ⟨mid, base ++ topMid, heap⟩))
      (le : ts ≤ mid)
      (others : Passes p heap ok mid topMid outputs last topLast) :
      Passes p heap ok ts top (written.toList.map (fun text => (ts, text)) ++ outputs) last topLast

namespace Passes

variable {p : Profile} {heap : MaroonTaskHeap} {ok : MaroonTaskStack → Prop}
  {ts mid last : LogicalTimeAbsoluteMs} {top topMid topLast : MaroonTaskStack}
  {outputs outputs' : List (LogicalTimeAbsoluteMs × String)}

theorem single {written : Option String}
    (first : ∀ base, ok base → stepTask p ⟨ts, base ++ top, heap⟩ =
      .ok (.requeued written ⟨mid, base ++ topMid, heap⟩))
    (le : ts ≤ mid) :
    Passes p heap ok ts top (written.toList.map fun text => (ts, text)) mid topMid := by
  have h := step first le (.rest mid topMid)
  rwa [List.append_nil] at h

theorem silent
    (first : ∀ base, ok base → stepTask p ⟨ts, base ++ top, heap⟩ =
      .ok (.requeued none ⟨mid, base ++ topMid, heap⟩))
    (le : ts ≤ mid) : Passes p heap ok ts top [] mid topMid := single first le

theorem writes {text : String}
    (first : ∀ base, ok base → stepTask p ⟨ts, base ++ top, heap⟩ =
      .ok (.requeued (some text) ⟨mid, base ++ topMid, heap⟩))
    (le : ts ≤ mid) : Passes p heap ok ts top [(ts, text)] mid topMid := single first le

theorem trans (h : Passes p heap ok ts top outputs mid topMid)
    (h' : Passes p heap ok mid topMid outputs' last topLast) :
    Passes p heap ok ts top (outputs ++ outputs') last topLast := by
  induction h with
  | rest ts top => exact h'
  | step first le _ ih =>
    rw [List.append_assoc]
    exact .step first le (ih h')

/-- What the steps do not look at may as well be part of the top. -/
theorem frame {ok' : MaroonTaskStack → Prop} (fr : MaroonTaskStack)
    (framed : ∀ base, ok' base → ok (base ++ fr))
    (h : Passes p heap ok ts top outputs last topLast) :
    Passes p heap ok' ts (fr ++ top) outputs last (fr ++ topLast) := by
  induction h with
  | rest ts top => exact .rest ts (fr ++ top)
  | step first le _ ih =>
    refine .step (fun base hbase => ?_) le ih
    have hfirst := first (base ++ fr) (framed base hbase)
    rwa [List.append_assoc, List.append_assoc] at hfirst

theorem le (h : Passes p heap ok ts top outputs last topLast) : ts ≤ last := by
  induction h with
  | rest ts top => exact le_refl ts
  | step _ le _ ih => exact le.trans ih

theorem after (h : Passes p heap ok ts top outputs last topLast) :
    ∃ n, ∀ base, ok base → (solo p).after (some ⟨ts, base ++ top, heap⟩) n =
      some (some ⟨last, base ++ topLast, heap⟩, outputs) := by
  induction h with
  | rest ts top => exact ⟨0, fun _ _ => rfl⟩
  | step first _ _ ih =>
    obtain ⟨n, hn⟩ := ih
    refine ⟨1 + n, fun base hbase => ?_⟩
    refine (solo p).after_add_iff.mpr ⟨_, _, _, ?_, hn base hbase, rfl⟩
    exact (solo p).run_singleton.mpr (solo_step_requeued (first base hbase))

theorem trail (h : Passes p heap ok ts top outputs last topLast) {base : MaroonTaskStack}
    (hbase : ok base) : Trail p ⟨ts, base ++ top, heap⟩ outputs ⟨last, base ++ topLast, heap⟩ := by
  induction h with
  | rest ts top => exact .rest _
  | step first le _ ih => exact .step (first base hbase) le ih

end Passes

/-- The time that a call for `k` takes, in units of fifty milliseconds. -/
def naps (k : ℕ) : ℕ := k * (k + 1) / 2

theorem naps_succ (k : ℕ) : naps (k + 1) = (k + 1) + naps k := by
  rw [naps, naps, show (k + 1) * (k + 1 + 1) = k * (k + 1) + (k + 1) * 2 by ring,
    Nat.add_mul_div_right _ _ (by decide), Nat.add_comm]

/-- What a call for `k` writes: `f(k)`, `f(k - 1)` and so on down to `f(1)`, each fifty
milliseconds for each of the earlier arguments after `ts`. -/
def callWrites (ts : LogicalTimeAbsoluteMs) (k : ℕ) : List (LogicalTimeAbsoluteMs × String) :=
  (List.range (max k 1)).map fun i => (ts + 50 * ∑ j ∈ Finset.Ioc (k - i) k, j, s!"f({k - i})")

theorem callWrites_bottom (ts : LogicalTimeAbsoluteMs) {k : ℕ} (h : k ≤ 1) :
    callWrites ts k = [(ts, s!"f({k})")] := by
  rw [callWrites, max_eq_right h]
  simp

theorem callWrites_succ (ts : LogicalTimeAbsoluteMs) {k : ℕ} (h : 0 < k) :
    callWrites ts (k + 1) = (ts, s!"f({k + 1})") :: callWrites (ts + 50 * (k + 1)) k := by
  have hk : max k 1 = k := max_eq_left h
  have hk' : max (k + 1) 1 = k + 1 := max_eq_left (by omega)
  rw [callWrites, callWrites, hk, hk', List.range_succ_eq_map, List.map_cons, List.map_map]
  congr 1
  · simp
  · refine List.map_congr_left fun i hi => ?_
    have hsub : k + 1 - (i + 1) = k - i := by omega
    have hsum := Finset.sum_Ioc_succ_top (Nat.sub_le k i) fun j => j
    simp only [Function.comp_apply, Nat.succ_eq_add_one, hsub, hsum]
    rw [Nat.mul_add, Nat.add_comm (50 * _), Nat.add_assoc]

section Factorial

variable {p : Profile} {heap : MaroonTaskHeap} {S : MaroonTaskState}

theorem modular_product {k v : ℕ} (fits : p.overflowChecks = true → (k + 1).factorial < u64Size)
    (hv : v = k.factorial % u64Size) :
    checkedArith .mul (u64Mul p.overflowChecks v (k + 1)) =
      .ok ((k + 1).factorial % u64Size) := by
  rw [checkedArith_ok, u64Mul, hv]
  have hle : k.factorial % u64Size * (k + 1) ≤ (k + 1).factorial := by
    rw [Nat.factorial_succ, Nat.mul_comm (k + 1)]
    exact Nat.mul_le_mul_right _ (Nat.mod_le _ _)
  have hmod : k.factorial % u64Size * (k + 1) % u64Size = (k + 1).factorial % u64Size := by
    rw [Nat.factorial_succ, Nat.mul_comm (k + 1), Nat.mod_mul_mod]
  rw [u64Fit_of_checks fun h => hle.trans_lt (fits h), hmod]

theorem call_sleeps (ts k : ℕ) (fits : ts + 50 * k < u64Size) :
    Passes p heap (Untouched p) ts [.value (.factorialArgument k), .state .factorialRecursiveCall]
      [(ts, s!"f({k})")] (ts + 50 * k)
      [.value (.factorialArgument k), .state .factorialRecursionPostSleep] := by
  have hwrite : Passes p heap (Untouched p) ts
      [.value (.factorialArgument k), .state .factorialRecursiveCall] [(ts, s!"f({k})")] ts
      [.value (.factorialArgument k), .state .factorialRecursionPostWrite] :=
    .writes (fun base u => stepTask_factorialCall ts heap k u) (le_refl ts)
  have hsleep : Passes p heap (Untouched p) ts
      [.value (.factorialArgument k), .state .factorialRecursionPostWrite] [] (ts + 50 * k)
      [.value (.factorialArgument k), .state .factorialRecursionPostSleep] := by
    refine .silent (fun base u => ?_) (Nat.le_add_right _ _)
    have hmul : u64Mul p.overflowChecks k 50 = some (50 * k) := by
      rw [u64Mul, Nat.mul_comm, u64Fit_of_lt (by omega)]
    have hadd : u64Add p.overflowChecks ts (50 * k) = some (ts + 50 * k) := u64Fit_of_lt fits
    rw [stepTask_factorialPostWrite ts heap k u, checkedArith_ok.mpr hmul, except_ok_bind,
      checkedArith_ok.mpr hadd, except_ok_bind]
  exact hwrite.trans hsleep

theorem factorial_bottom {ts k : ℕ} (h : k ≤ 1) (times : ts + 50 * naps k < u64Size) :
    Passes p heap (fun base => Untouched p (base ++ [.retrn S])) ts
      [.retrn S, .value (.factorialArgument k), .state .factorialRecursiveCall]
      (callWrites ts k) (ts + 50 * naps k)
      [.value (.factorialReturnValue (k.factorial % u64Size)), .state S] := by
  have hnaps : naps k = k := by
    rcases Nat.le_one_iff_eq_zero_or_eq_one.mp h with rfl | rfl <;> rfl
  have hone : k.factorial % u64Size = 1 := by
    rcases Nat.le_one_iff_eq_zero_or_eq_one.mp h with rfl | rfl <;> rfl
  rw [hnaps] at times
  rw [hnaps, hone, callWrites_bottom ts h]
  have hcall : Passes p heap (fun base => Untouched p (base ++ [.retrn S])) ts
      ([.retrn S] ++ [.value (.factorialArgument k), .state .factorialRecursiveCall])
      [(ts, s!"f({k})")] (ts + 50 * k)
      ([.retrn S] ++ [.value (.factorialArgument k), .state .factorialRecursionPostSleep]) :=
    (call_sleeps ts k times).frame [.retrn S] fun _ u => u
  refine hcall.trans (.silent (fun base u => ?_) (le_refl _))
  have hbottom := stepTask_factorialBottom (ts + 50 * k) heap k u h
  rwa [List.append_assoc] at hbottom

theorem call_recurses (ts : ℕ) {k : ℕ} (h : 0 < k) :
    Passes p heap (Untouched p) ts
      [.value (.factorialArgument (k + 1)), .state .factorialRecursionPostSleep] [] ts
      ([.value (.factorialArgument (k + 1))] ++ [.retrn .factorialRecursionPostRecursiveCall,
        .value (.factorialArgument k), .state .factorialRecursiveCall]) := by
  refine .silent (fun base u => ?_) (le_refl ts)
  have hrecurse := stepTask_factorialRecurse ts heap (k + 1) u (by omega)
  rw [Nat.add_sub_cancel, List.append_assoc] at hrecurse
  exact hrecurse

theorem call_multiplies (ts : ℕ) {k : ℕ}
    (fits : p.overflowChecks = true → (k + 1).factorial < u64Size) :
    Passes p heap (fun base => Untouched p (base ++ [.retrn S])) ts
      ([.retrn S, .value (.factorialArgument (k + 1))] ++
        [.value (.factorialReturnValue (k.factorial % u64Size)),
          .state .factorialRecursionPostRecursiveCall]) [] ts
      [.value (.factorialReturnValue ((k + 1).factorial % u64Size)), .state S] := by
  refine .silent (fun base u => ?_) (le_refl ts)
  have hmultiply := stepTask_factorialMultiply ts heap (k + 1) (k.factorial % u64Size) u
  rwa [modular_product fits rfl, except_ok_bind, List.append_assoc] at hmultiply

/-- The recursion over any caller: whatever stack is beneath the frame that it returns to, the
call runs the same, leaves the stack as it was, and returns the factorial. -/
theorem factorial_call (k ts : ℕ) (times : ts + 50 * naps k < u64Size)
    (fits : p.overflowChecks = true → k.factorial < u64Size) :
    Passes p heap (fun base => Untouched p (base ++ [.retrn S])) ts
      [.retrn S, .value (.factorialArgument k), .state .factorialRecursiveCall]
      (callWrites ts k) (ts + 50 * naps k)
      [.value (.factorialReturnValue (k.factorial % u64Size)), .state S] := by
  induction k generalizing ts S with
  | zero => exact factorial_bottom (Nat.zero_le 1) times
  | succ k ih =>
    rw [naps_succ] at times ⊢
    have hcall : Passes p heap (fun base => Untouched p (base ++ [.retrn S])) ts
        ([.retrn S] ++ [.value (.factorialArgument (k + 1)), .state .factorialRecursiveCall])
        [(ts, s!"f({k + 1})")] (ts + 50 * (k + 1))
        ([.retrn S] ++ [.value (.factorialArgument (k + 1)),
          .state .factorialRecursionPostSleep]) :=
      (call_sleeps ts (k + 1) (by omega)).frame [.retrn S] fun _ u => u
    rcases Nat.eq_zero_or_pos k with rfl | hk
    · exact factorial_bottom (le_refl 1) times
    · rw [callWrites_succ ts hk]
      have hrecurse : Passes p heap (fun base => Untouched p (base ++ [.retrn S]))
          (ts + 50 * (k + 1)) _ [] (ts + 50 * (k + 1)) _ :=
        (call_recurses (ts + 50 * (k + 1)) hk).frame [.retrn S] fun _ u => u
      have hfits : p.overflowChecks = true → k.factorial < u64Size := fun h =>
        (Nat.factorial_le (Nat.le_succ k)).trans_lt (fits h)
      -- the callee returns into the frame that keeps the argument of the caller
      have hcallee : Passes p heap (fun base => Untouched p (base ++ [.retrn S]))
          (ts + 50 * (k + 1)) _ (callWrites (ts + 50 * (k + 1)) k)
          (ts + 50 * (k + 1) + 50 * naps k) _ :=
        (ih (S := .factorialRecursionPostRecursiveCall) (ts + 50 * (k + 1)) (by omega) hfits).frame
          [.retrn S, .value (.factorialArgument (k + 1))] fun base u => by
            have hframe := u.push (r := .factorialRecursionPostRecursiveCall)
              (v := .factorialArgument (k + 1)) rfl
            rwa [List.append_assoc] at hframe ⊢
      have hmultiply := @call_multiplies p heap S (ts + 50 * (k + 1) + 50 * naps k) k fits
      have hall := hcall.trans (hrecurse.trans (hcallee.trans hmultiply))
      rw [show ts + 50 * (k + 1 + naps k) = ts + 50 * (k + 1) + 50 * naps k by omega]
      rwa [List.append_nil] at hall

end Factorial

/-- Everything that the factorial task writes, and when. -/
def factorialWrites (ts : LogicalTimeAbsoluteMs) (n : ℕ) : List (LogicalTimeAbsoluteMs × String) :=
  callWrites ts n ++ [(ts + 50 * naps n, s!"{n}!={n.factorial % u64Size}")]

variable {p : Profile}

theorem factorial_task (ts n : ℕ) (times : ts + 50 * naps n < u64Size)
    (fits : p.overflowChecks = true → n.factorial < u64Size) :
    Passes p .empty (· = []) ts (Launch.factorial n).stack (factorialWrites ts n)
      (ts + 50 * naps n) [.state .completed] := by
  have hentry : Passes p .empty (· = []) ts (Launch.factorial n).stack [] ts
      ([.value (.factorialInput n)] ++ [.retrn .factorialDone, .value (.factorialArgument n),
        .state .factorialRecursiveCall]) := by
    refine .silent (fun base hbase => ?_) (le_refl ts)
    rw [hbase]
    exact stepTask_factorialEntry p ts .empty n
  have hcall : Passes p .empty (· = []) ts _ (callWrites ts n) (ts + 50 * naps n) _ :=
    (factorial_call (S := .factorialDone) n ts times fits).frame [.value (.factorialInput n)]
      fun base hbase => by
        rw [hbase]
        exact (untouched_nil p).push (r := .factorialDone) (v := .factorialInput n) rfl
  have hdone : Passes p .empty (· = []) (ts + 50 * naps n)
      ([.value (.factorialInput n)] ++ [.value (.factorialReturnValue (n.factorial % u64Size)),
        .state .factorialDone])
      [(ts + 50 * naps n, s!"{n}!={n.factorial % u64Size}")] (ts + 50 * naps n)
      [.state .completed] := by
    refine .writes (fun base hbase => ?_) (le_refl _)
    rw [hbase]
    exact stepTask_factorialDone p (ts + 50 * naps n) .empty n (n.factorial % u64Size)
  exact hentry.trans (hcall.trans hdone)

theorem factorial_trail (ts n : ℕ) (times : ts + 50 * naps n < u64Size)
    (fits : p.overflowChecks = true → n.factorial < u64Size) :
    Trail p ((Launch.factorial n).activation ts) (factorialWrites ts n)
      ⟨ts + 50 * naps n, [.state .completed], .empty⟩ := (factorial_task ts n times fits).trail rfl

/-- The task that a request for the factorial of `n` launches at `ts` writes `f(n)` down to `f(1)`
and then the factorial modulo 2^64, at the sums of the naps before, and completes; and a call for
`k` does its part of this over whatever stack lies beneath the frame that it returns to. -/
theorem factorial_computes (p : Profile) :
    (∀ ts n : ℕ, ts + 50 * naps n < u64Size → (p.overflowChecks = true → n.factorial < u64Size) →
      (∃ steps, (solo p).after (some ((Launch.factorial n).activation ts)) steps =
        some (none, factorialWrites ts n)) ∧
      ∀ (W : Type) (H : PendingHeap) (inputs : List (Input W)) (fsm : MaroonRuntime W H)
        (events : List (Event W)) (taskId : MaroonTaskId) (writer : W),
        (runtime p W H).run (MaroonRuntime.new W H) inputs = some (fsm, events) →
        IdsFit p inputs → Event.scheduled taskId writer (.factorial n) ts ∈ events →
        outputsOf taskId events <+: factorialWrites ts n ∧
        (taskId ∉ fsm.activeTasks → outputsOf taskId events = factorialWrites ts n) ∧
        ((∀ t ∈ H.elems fsm.pendingOperations, ts + 50 * naps n < t.scheduledTimestamp) →
          taskId ∉ fsm.activeTasks)) ∧
    ∀ (ts k : ℕ) (heap : MaroonTaskHeap) (S : MaroonTaskState),
      ts + 50 * naps k < u64Size → (p.overflowChecks = true → k.factorial < u64Size) →
      Passes p heap (fun P => Untouched p (P ++ [.retrn S])) ts
        [.retrn S, .value (.factorialArgument k), .state .factorialRecursiveCall]
        (callWrites ts k) (ts + 50 * naps k)
        [.value (.factorialReturnValue (k.factorial % u64Size)), .state S] ∧
      ∃ steps, ∀ P, Untouched p (P ++ [.retrn S]) →
        (solo p).after (some ⟨ts, P ++ [.retrn S, .value (.factorialArgument k),
          .state .factorialRecursiveCall], heap⟩) steps =
        some (some ⟨ts + 50 * naps k, P ++ [.value (.factorialReturnValue
          (k.factorial % u64Size)), .state S], heap⟩, callWrites ts k) := by
  refine ⟨fun ts n times fits => ⟨(factorial_trail ts n times fits).completes, ?_⟩,
    fun ts k heap S times fits => ?_⟩
  · intro W H inputs fsm events taskId writer run fit launched
    exact (factorial_trail ts n times fits).in_runtime run fit launched
  · have hcall := @factorial_call p heap S k ts times fits
    exact ⟨hcall, hcall.after⟩

def factorialOfFiveInputs : List (Input String) :=
  .schedule "writer" (.factorial 5) 0 :: List.replicate 22 (.iterate 1000 (.ok ()))

theorem factorial_of_five : ∃ fsm events,
    (runtime ⟨true, true⟩ String .list).run (MaroonRuntime.new String .list)
      factorialOfFiveInputs = some (fsm, events) ∧
    1 ∉ fsm.activeTasks ∧
    outputsOf 1 events = [(0, "f(5)"), (250, "f(4)"), (450, "f(3)"), (600, "f(2)"), (700, "f(1)"),
      (750, "5!=120")] ∧
    ∃ steps, (solo ⟨true, true⟩).after (some ⟨0, [.value (.factorialInput 7),
        .retrn .factorialDone, .value (.factorialArgument 5), .state .factorialRecursiveCall],
        .empty⟩) steps =
      some (some ⟨750, [.value (.factorialInput 7), .value (.factorialReturnValue 120),
        .state .factorialDone], .empty⟩, callWrites 0 5) := by
  have hrun : ((runtime ⟨true, true⟩ String .list).run (MaroonRuntime.new String .list)
      factorialOfFiveInputs).map (fun r =>
        (r.2.head?, Multiset.card (PendingHeap.list.elems r.1.pendingOperations))) =
      some (some (.scheduled 1 "writer" (.factorial 5) 0), 0) := by
    decide +kernel
  obtain ⟨⟨fsm, events⟩, run, heq⟩ := Option.map_eq_some_iff.mp hrun
  obtain ⟨hhead, hpending⟩ := Prod.mk.inj heq
  have launched : Event.scheduled 1 "writer" (.factorial 5) 0 ∈ events :=
    List.mem_of_mem_head? hhead
  have times : 0 + 50 * naps 5 < u64Size := by decide
  have fits : Nat.factorial 5 < u64Size := by decide
  have htask := ((factorial_computes ⟨true, true⟩).1 0 5 times fun _ => fits).2
    String .list _ fsm events 1 "writer" run (fun _ => by decide) launched
  have hgone : 1 ∉ fsm.activeTasks := htask.2.2 fun t ht => by
    rw [Multiset.card_eq_zero.mp hpending] at ht
    exact absurd ht (Multiset.notMem_zero t)
  obtain ⟨_, steps, hsteps⟩ :=
    (factorial_computes ⟨true, true⟩).2 0 5 .empty .factorialDone times fun _ => fits
  refine ⟨fsm, events, run, hgone, (htask.2.1 hgone).trans (by decide), steps, ?_⟩
  exact hsteps [.value (.factorialInput 7)]
    ((untouched_nil _).push (r := .factorialDone) (v := .factorialInput 7) rfl)

end RustExperiments.Maroon
