/- module: RustExperiments/Maroon/Fibonacci
   digest: The Fibonacci task writes the sequence modulo 2^64, at the sums of its growing delays. -/

import Mathlib.Data.Nat.Choose.Basic
import Mathlib.Data.Nat.Fib.Basic
import Mathlib.Tactic.Ring
import RustExperiments.Maroon.Trail

set_option autoImplicit false
set_option relaxedAutoImplicit false

namespace RustExperiments.Maroon

open RustExperiments.Lib

/-- The time until the line for index `k`, in units of five milliseconds. -/
def waits (k : ℕ) : ℕ := k * (k - 1) / 2

theorem waits_eq_choose (k : ℕ) : waits k = k.choose 2 := (Nat.choose_two_right k).symm

theorem waits_succ (k : ℕ) : waits (k + 1) = waits k + k := by
  rw [waits_eq_choose, waits_eq_choose, Nat.choose_succ_succ' k 1, Nat.choose_one_right,
    Nat.add_comm]

theorem waits_mono {k n : ℕ} (h : k ≤ n) : waits k ≤ waits n := by
  rw [waits_eq_choose, waits_eq_choose]
  exact Nat.choose_le_choose 2 h

section Writes

variable (p : Profile) (ts n : ℕ)

/-- The line of the step for index `k`. -/
def fibonacciStepWrite (k : ℕ) : LogicalTimeAbsoluteMs × String :=
  (ts + 5 * waits k, formatFibonacciStep p n k (Nat.fib k % u64Size) (Nat.fib (k - 1) % u64Size))

/-- Everything that the Fibonacci task writes, and when: the steps for the indexes from `1` to
`n - 1`, and the result. -/
def fibonacciWrites : List (LogicalTimeAbsoluteMs × String) :=
  (List.range' 1 (n - 1)).map (fibonacciStepWrite p ts n) ++
    [(ts + 5 * waits n, formatFibonacciResult p n (Nat.fib n % u64Size))]

end Writes

variable {p : Profile}

theorem modular_sum {k : ℕ} (fits : p.overflowChecks = true → Nat.fib (k + 2) < u64Size) :
    checkedArith .add (u64Add p.overflowChecks (Nat.fib k % u64Size)
      (Nat.fib (k + 1) % u64Size)) = .ok (Nat.fib (k + 2) % u64Size) := by
  rw [checkedArith_ok, u64Add]
  have hle : Nat.fib k % u64Size + Nat.fib (k + 1) % u64Size ≤ Nat.fib (k + 2) := by
    rw [Nat.fib_add_two]
    exact Nat.add_le_add (Nat.mod_le _ _) (Nat.mod_le _ _)
  have hmod : (Nat.fib k % u64Size + Nat.fib (k + 1) % u64Size) % u64Size =
      Nat.fib (k + 2) % u64Size := by
    rw [Nat.fib_add_two, ← Nat.add_mod]
  rw [u64Fit_of_checks fun h => hle.trans_lt (fits h), hmod]

def fibonacciAt (ts n k delayMs : ℕ) : Activation :=
  ⟨ts + 5 * waits k, [.state .fibonacciTaskCalculate],
    .fibonacci ⟨n, k, Nat.fib (k - 1) % u64Size, Nat.fib k % u64Size, delayMs⟩⟩

/-- A turn of the loop writes the second number of the pair, and its sleep is for the index that it
wrote, although the pair and the index have moved on by then. -/
theorem fibonacci_turn_trail {ts n k delayMs : ℕ} {last : Activation}
    {outputs : List (LogicalTimeAbsoluteMs × String)} (positive : 0 < k) (before : k < n)
    (times : ts + 5 * waits n < u64Size)
    (fits : p.overflowChecks = true → Nat.fib (k + 1) < u64Size)
    (others : Trail p (fibonacciAt ts n (k + 1) (5 * k)) outputs last) :
    Trail p (fibonacciAt ts n k delayMs) (fibonacciStepWrite p ts n k :: outputs) last := by
  have hwaits : waits (k + 1) ≤ waits n := waits_mono before
  have hnext : waits (k + 1) = waits k + k := waits_succ k
  have hmul : u64Mul p.overflowChecks 5 k = some (5 * k) := u64Fit_of_lt (by omega)
  have hwrite : stepTask p (fibonacciAt ts n k delayMs) =
      .ok (.requeued (some (fibonacciStepWrite p ts n k).2) ⟨ts + 5 * waits k,
        [.state .fibonacciTaskStep],
        .fibonacci ⟨n, k, Nat.fib (k - 1) % u64Size, Nat.fib k % u64Size, 5 * k⟩⟩) := by
    rw [fibonacciAt, stepTask_fibonacciCalculate, if_neg (Nat.not_le.mpr before),
      checkedArith_ok.mpr hmul, except_ok_bind, fibonacciStepWrite]
  have hsleep : stepTask p ⟨ts + 5 * waits k, [.state .fibonacciTaskStep],
        .fibonacci ⟨n, k, Nat.fib (k - 1) % u64Size, Nat.fib k % u64Size, 5 * k⟩⟩ =
      .ok (.requeued none (fibonacciAt ts n (k + 1) (5 * k))) := by
    obtain ⟨j, rfl⟩ : ∃ j, k = j + 1 := ⟨k - 1, by omega⟩
    have hindex : u64Add p.overflowChecks (j + 1) 1 = some (j + 1 + 1) := u64Fit_of_lt (by omega)
    have hwake : u64Add p.overflowChecks (ts + 5 * waits (j + 1)) (5 * (j + 1)) =
        some (ts + 5 * waits (j + 1 + 1)) := by
      have hsum : ts + 5 * waits (j + 1) + 5 * (j + 1) = ts + 5 * waits (j + 1 + 1) := by omega
      rw [u64Add, hsum]
      exact u64Fit_of_lt (by omega)
    rw [stepTask_fibonacciStep, checkedArith_ok.mpr hindex, except_ok_bind, Nat.add_sub_cancel,
      modular_sum fits, except_ok_bind, checkedArith_ok.mpr hwake, except_ok_bind]
    rfl
  exact .writes hwrite (le_refl _) (.silent hsleep (by simp [fibonacciAt, hnext]) others)

theorem fibonacci_result_trail (ts n delayMs : ℕ) :
    ∃ heap, Trail p (fibonacciAt ts n n delayMs)
      [(ts + 5 * waits n, formatFibonacciResult p n (Nat.fib n % u64Size))]
      ⟨ts + 5 * waits n, [.state .completed], heap⟩ := by
  have hend : stepTask p (fibonacciAt ts n n delayMs) = .ok (.requeued none
      ⟨ts + 5 * waits n, [.state .fibonacciTaskResult], (fibonacciAt ts n n delayMs).heap⟩) := by
    rw [fibonacciAt, stepTask_fibonacciCalculate, if_pos (le_refl n)]
  have hresult := stepTask_fibonacciResult p (ts + 5 * waits n) n n (Nat.fib (n - 1) % u64Size)
    (Nat.fib n % u64Size) delayMs
  exact ⟨_, .silent hend (le_refl _) (.writes hresult (le_refl _) (.rest _))⟩

theorem fibonacci_loop_trail (ts n : ℕ) (times : ts + 5 * waits n < u64Size)
    (fits : p.overflowChecks = true → Nat.fib n < u64Size) (m k delayMs : ℕ) (positive : 0 < k)
    (left : k + m = n) :
    ∃ heap, Trail p (fibonacciAt ts n k delayMs)
      ((List.range' k m).map (fibonacciStepWrite p ts n) ++
        [(ts + 5 * waits n, formatFibonacciResult p n (Nat.fib n % u64Size))])
      ⟨ts + 5 * waits n, [.state .completed], heap⟩ := by
  induction m generalizing k delayMs with
  | zero =>
    obtain rfl : k = n := left
    exact fibonacci_result_trail ts k delayMs
  | succ m ih =>
    obtain ⟨heap, hothers⟩ := ih (k + 1) (5 * k) (Nat.succ_pos k) (by omega)
    have hfits : p.overflowChecks = true → Nat.fib (k + 1) < u64Size := fun h =>
      (Nat.fib_mono (by omega)).trans_lt (fits h)
    exact ⟨heap, fibonacci_turn_trail positive (by omega) times hfits hothers⟩

theorem fibonacci_trail (ts n : ℕ) (times : ts + 5 * waits n < u64Size)
    (fits : p.overflowChecks = true → Nat.fib n < u64Size) :
    ∃ heap, Trail p ((Launch.fibonacci n).activation ts) (fibonacciWrites p ts n)
      ⟨ts + 5 * waits n, [.state .completed], heap⟩ := by
  have hbegin := stepTask_fibonacciBegin p ts n 0 0 0 0
  by_cases h : n ≤ 1
  · rw [if_pos h] at hbegin
    have hwaits : waits n = 0 := by
      rcases Nat.le_one_iff_eq_zero_or_eq_one.mp h with rfl | rfl <;> rfl
    have hfib : Nat.fib n % u64Size = n := by
      rcases Nat.le_one_iff_eq_zero_or_eq_one.mp h with rfl | rfl <;> rfl
    rw [fibonacciWrites, hwaits, hfib, Nat.sub_eq_zero_of_le h]
    exact ⟨_, .writes hbegin (le_refl ts) (.rest _)⟩
  · rw [if_neg h] at hbegin
    obtain ⟨heap, hloop⟩ :=
      fibonacci_loop_trail ts n times fits (n - 1) 1 0 Nat.one_pos (by omega)
    exact ⟨heap, .silent hbegin (le_refl ts) hloop⟩

/-- The task that a request for the Fibonacci number `n` launches at `ts` writes the numbers before
it, each after the delays of the earlier indexes, and then its own, all of them modulo 2^64, and
completes. -/
theorem fibonacci_computes (p : Profile) (ts n : ℕ)
    (times : ts + 5 * (n * (n - 1) / 2) < u64Size)
    (fits : p.overflowChecks = true → Nat.fib n < u64Size) :
    (∃ steps, (solo p).after (some ((Launch.fibonacci n).activation ts)) steps =
      some (none, fibonacciWrites p ts n)) ∧
    ∀ (W : Type) (H : PendingHeap) (inputs : List (Input W)) (fsm : MaroonRuntime W H)
      (events : List (Event W)) (taskId : MaroonTaskId) (writer : W),
      (runtime p W H).run (MaroonRuntime.new W H) inputs = some (fsm, events) →
      IdsFit p inputs → Event.scheduled taskId writer (.fibonacci n) ts ∈ events →
      outputsOf taskId events <+: fibonacciWrites p ts n ∧
      (taskId ∉ fsm.activeTasks → outputsOf taskId events = fibonacciWrites p ts n) ∧
      ((∀ t ∈ H.elems fsm.pendingOperations, ts + 5 * (n * (n - 1) / 2) < t.scheduledTimestamp) →
        taskId ∉ fsm.activeTasks) := by
  obtain ⟨heap, htrail⟩ := fibonacci_trail ts n times fits
  refine ⟨htrail.completes, ?_⟩
  intro W H inputs fsm events taskId writer run fit launched
  exact htrail.in_runtime run fit launched

def fibonacciOfFiveInputs : List (Input String) :=
  .schedule "writer" (.fibonacci 5) 0 :: List.replicate 13 (.iterate 1000 (.ok ()))

theorem fibonacci_of_five : ∃ fsm events,
    (runtime ⟨true, true⟩ String .list).run (MaroonRuntime.new String .list)
      fibonacciOfFiveInputs = some (fsm, events) ∧
    1 ∉ fsm.activeTasks ∧
    outputsOf 1 events = [(0, "fib1[5]=1"), (5, "fib2[5]=1"), (15, "fib3[5]=2"), (30, "fib4[5]=3"),
      (50, "fib5=5")] := by
  have hrun : ((runtime ⟨true, true⟩ String .list).run (MaroonRuntime.new String .list)
      fibonacciOfFiveInputs).map (fun r =>
        (r.2.head?, Multiset.card (PendingHeap.list.elems r.1.pendingOperations))) =
      some (some (.scheduled 1 "writer" (.fibonacci 5) 0), 0) := by
    decide +kernel
  obtain ⟨⟨fsm, events⟩, run, heq⟩ := Option.map_eq_some_iff.mp hrun
  obtain ⟨hhead, hpending⟩ := Prod.mk.inj heq
  have fits : Nat.fib 5 < u64Size := by decide
  have htask := (fibonacci_computes ⟨true, true⟩ 0 5 (by decide) fun _ => fits).2 String .list _
    fsm events 1 "writer" run (fun _ => by decide) (List.mem_of_mem_head? hhead)
  have hgone : 1 ∉ fsm.activeTasks := htask.2.2 fun t ht => by
    rw [Multiset.card_eq_zero.mp hpending] at ht
    exact absurd ht (Multiset.notMem_zero t)
  exact ⟨fsm, events, run, hgone, (htask.2.1 hgone).trans (by decide +kernel)⟩

end RustExperiments.Maroon
