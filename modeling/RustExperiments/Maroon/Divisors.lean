/- module: RustExperiments/Maroon/Divisors
   digest: The divisors task lists the divisors, greatest first, and its cursor stays in bounds. -/

import RustExperiments.Maroon.Halting
import RustExperiments.Maroon.Overflow
import RustExperiments.Maroon.Trail

set_option autoImplicit false
set_option relaxedAutoImplicit false

namespace RustExperiments.Maroon

open RustExperiments.Lib

section Search

/-- `a % b`, which panics on zero in any build. -/
def u64Rem (a b : ℕ) : Option ℕ := if b = 0 then none else some (a % b)

/-- The loop `while i > 0 && data.n % i != 0 { i -= 1; }` for at most `fuel` tests of its condition,
with the remainder and the decrement as they can panic. -/
def searchLoop (checks : Bool) (n : ℕ) : ℕ → ℕ → Option ℕ
  | 0, _ => none
  | fuel + 1, i =>
    if 0 < i then do
      let r ← u64Rem n i
      if r ≠ 0 then do
        let i ← u64Sub checks i 1
        searchLoop checks n fuel i
      else some i
    else some i

theorem searchLoop_eq (checks : Bool) (n i : ℕ) :
    searchLoop checks n (i + 1) i = some (searchDivisor n i) := by
  induction i with
  | zero => rfl
  | succ i ih =>
    have hrem : u64Rem n (i + 1) = some (n % (i + 1)) := if_neg (Nat.succ_ne_zero i)
    rw [searchLoop, if_pos (Nat.succ_pos i), hrem, Option.bind_eq_bind, Option.bind_some,
      searchDivisor]
    split_ifs with h
    · rw [u64Sub_of_le (Nat.succ_le_succ (Nat.zero_le i)), Option.bind_some]
      exact ih
    · rfl

end Search

section List

/-- The divisors of `n` from the cursor down. -/
def divisorsDown (n : ℕ) : ℕ → List ℕ
  | 0 => []
  | i + 1 => if i + 1 ∣ n then (i + 1) :: divisorsDown n i else divisorsDown n i

theorem mem_divisorsDown {n i d : ℕ} : d ∈ divisorsDown n i ↔ (0 < d ∧ d ≤ i) ∧ d ∣ n := by
  induction i with
  | zero =>
    simp only [divisorsDown, List.not_mem_nil, false_iff]
    omega
  | succ i ih =>
    rw [divisorsDown]
    by_cases h : i + 1 ∣ n
    · rw [if_pos h, List.mem_cons, ih]
      constructor
      · rintro (rfl | ⟨⟨hpos, hle⟩, hdvd⟩)
        · exact ⟨⟨Nat.succ_pos i, le_refl _⟩, h⟩
        · exact ⟨⟨hpos, hle.trans (Nat.le_succ i)⟩, hdvd⟩
      · rintro ⟨⟨hpos, hle⟩, hdvd⟩
        rcases Nat.le_succ_iff.mp hle with hle | rfl
        · exact Or.inr ⟨⟨hpos, hle⟩, hdvd⟩
        · exact Or.inl rfl
    · rw [if_neg h, ih]
      constructor
      · rintro ⟨⟨hpos, hle⟩, hdvd⟩
        exact ⟨⟨hpos, hle.trans (Nat.le_succ i)⟩, hdvd⟩
      · rintro ⟨⟨hpos, hle⟩, hdvd⟩
        rcases Nat.le_succ_iff.mp hle with hle | rfl
        · exact ⟨⟨hpos, hle⟩, hdvd⟩
        · exact absurd hdvd h

theorem mem_divisorsDown_self {n d : ℕ} : d ∈ divisorsDown n n ↔ d ∈ n.divisors := by
  rw [mem_divisorsDown, Nat.mem_divisors]
  constructor
  · rintro ⟨⟨hpos, hle⟩, hdvd⟩
    exact ⟨hdvd, by omega⟩
  · rintro ⟨hdvd, hne⟩
    exact ⟨⟨Nat.pos_of_dvd_of_pos hdvd (Nat.pos_of_ne_zero hne),
      Nat.le_of_dvd (Nat.pos_of_ne_zero hne) hdvd⟩, hdvd⟩

theorem divisorsDown_decreasing (n i : ℕ) : (divisorsDown n i).Pairwise (· > ·) := by
  induction i with
  | zero => exact List.Pairwise.nil
  | succ i ih =>
    rw [divisorsDown]
    split_ifs with h
    · exact List.pairwise_cons.mpr
        ⟨fun d hd => Nat.lt_succ_of_le (mem_divisorsDown.mp hd).1.2, ih⟩
    · exact ih

theorem divisorsDown_search (n i : ℕ) :
    divisorsDown n i = if searchDivisor n i = 0 then [] else
      searchDivisor n i :: divisorsDown n (searchDivisor n i - 1) := by
  induction i with
  | zero => rfl
  | succ i ih =>
    rw [divisorsDown, searchDivisor]
    by_cases h : i + 1 ∣ n
    · have hmod : ¬ n % (i + 1) ≠ 0 := not_not.mpr (Nat.mod_eq_zero_of_dvd h)
      rw [if_pos h, if_neg hmod, if_neg (Nat.succ_ne_zero i), Nat.add_sub_cancel]
    · have hmod : n % (i + 1) ≠ 0 := mt Nat.dvd_of_mod_eq_zero h
      rw [if_neg h, if_pos hmod, ih]

def total (ds : List ℕ) : ℕ := ds.foldr (· + ·) 0

theorem total_cons (d : ℕ) (ds : List ℕ) : total (d :: ds) = d + total ds := rfl

theorem total_divisorsDown (n i : ℕ) : total (divisorsDown n i) = divisorsUpTo n i := by
  induction i with
  | zero => rfl
  | succ i ih =>
    rw [divisorsUpTo_succ, divisorsDown]
    split_ifs with h
    · rw [total_cons, ih, Nat.add_comm]
    · exact ih

end List

section Writes

variable (p : Profile)

/-- The lines of the divisors `ds`: each of them comes ten milliseconds for each unit of the
divisors up to and with it after `ts`. -/
def foundWrites (n : ℕ) (ts : LogicalTimeAbsoluteMs) (ds : List ℕ) :
    List (LogicalTimeAbsoluteMs × String) :=
  ds.mapIdx fun k d => (ts + 10 * total (ds.take (k + 1)), formatDivisorFound p n d)

theorem foundWrites_cons (n : ℕ) (ts : LogicalTimeAbsoluteMs) (d : ℕ) (ds : List ℕ) :
    foundWrites p n ts (d :: ds) =
      (ts + d * 10, formatDivisorFound p n d) :: foundWrites p n (ts + d * 10) ds := by
  rw [foundWrites, List.mapIdx_cons, foundWrites]
  congr 1
  · simp [total, Nat.mul_comm]
  · refine List.mapIdx_eq_mapIdx_iff.mpr fun k hk => ?_
    rw [List.take_succ_cons, total_cons]
    congr 1
    ring

def divisorsWritesFrom (n : ℕ) (ts : LogicalTimeAbsoluteMs) (ds : List ℕ) :
    List (LogicalTimeAbsoluteMs × String) :=
  foundWrites p n ts ds ++ [(ts + 10 * total ds, formatDivisorsDone p n)]

theorem divisorsWritesFrom_cons (n : ℕ) (ts : LogicalTimeAbsoluteMs) (d : ℕ) (ds : List ℕ) :
    divisorsWritesFrom p n ts (d :: ds) =
      (ts + d * 10, formatDivisorFound p n d) :: divisorsWritesFrom p n (ts + d * 10) ds := by
  rw [divisorsWritesFrom, foundWrites_cons, total_cons, divisorsWritesFrom, List.cons_append,
    show ts + 10 * (d + total ds) = ts + d * 10 + 10 * total ds by ring]

/-- Everything that the divisors task writes, and when. -/
def divisorsWrites (ts : LogicalTimeAbsoluteMs) (n : ℕ) : List (LogicalTimeAbsoluteMs × String) :=
  divisorsWritesFrom p n ts (divisorsDown n n)

example : divisorsWrites ⟨true, true⟩ 7 0 = [(7, "0!")] := by decide

end Writes

variable {p : Profile}

theorem divisors_turn_trail {ts n i : ℕ} {last : Activation}
    {outputs : List (LogicalTimeAbsoluteMs × String)} (found : searchDivisor n i ≠ 0)
    (times : ts + searchDivisor n i * 10 < u64Size)
    (others : Trail p ⟨ts + searchDivisor n i * 10, [.state .divisorsTaskIteration],
      .divisors ⟨n, searchDivisor n i - 1⟩⟩ outputs last) :
    Trail p ⟨ts, [.state .divisorsTaskIteration], .divisors ⟨n, i⟩⟩
      ((ts + searchDivisor n i * 10, formatDivisorFound p n (searchDivisor n i)) :: outputs)
      last := by
  have hsearch : stepTask p ⟨ts, [.state .divisorsTaskIteration], .divisors ⟨n, i⟩⟩ =
      .ok (.requeued none ⟨ts + searchDivisor n i * 10, [.state .divisorsPrintAndMoveOn],
        .divisors ⟨n, searchDivisor n i⟩⟩) := by
    have hmul : u64Mul p.overflowChecks (searchDivisor n i) 10 = some (searchDivisor n i * 10) :=
      u64Fit_of_lt (by omega)
    have hadd : u64Add p.overflowChecks ts (searchDivisor n i * 10) =
        some (ts + searchDivisor n i * 10) := u64Fit_of_lt times
    rw [stepTask_divisorsIteration, if_neg found, checkedArith_ok.mpr hmul, except_ok_bind,
      checkedArith_ok.mpr hadd, except_ok_bind]
  have hprint : stepTask p ⟨ts + searchDivisor n i * 10, [.state .divisorsPrintAndMoveOn],
      .divisors ⟨n, searchDivisor n i⟩⟩ =
      .ok (.requeued (some (formatDivisorFound p n (searchDivisor n i)))
        ⟨ts + searchDivisor n i * 10, [.state .divisorsTaskIteration],
          .divisors ⟨n, searchDivisor n i - 1⟩⟩) := by
    rw [stepTask_divisorsPrint,
      checkedArith_ok.mpr (u64Sub_of_le (Nat.pos_of_ne_zero found)), except_ok_bind]
  exact .silent hsearch (Nat.le_add_right _ _) (.writes hprint (le_refl _) others)

theorem divisors_loop_trail (ts n i : ℕ)
    (times : ts + 10 * total (divisorsDown n i) < u64Size) :
    ∃ heap, Trail p ⟨ts, [.state .divisorsTaskIteration], .divisors ⟨n, i⟩⟩
      (divisorsWritesFrom p n ts (divisorsDown n i))
      ⟨ts + 10 * total (divisorsDown n i), [.state .completed], heap⟩ := by
  induction i using Nat.strong_induction_on generalizing ts with
  | _ i ih =>
    rw [divisorsDown_search] at times ⊢
    split_ifs at times ⊢ with hzero
    · have hdone : stepTask p ⟨ts, [.state .divisorsTaskIteration], .divisors ⟨n, i⟩⟩ =
          .ok (.requeued (some (formatDivisorsDone p n))
            ⟨ts, [.state .completed], .divisors ⟨n, i⟩⟩) := by
        rw [stepTask_divisorsIteration, if_pos hzero]
      exact ⟨_, .writes hdone (le_refl ts) (.rest _)⟩
    · have hle := searchDivisor_le n i
      rw [total_cons] at times
      have hturn : ts + 10 * (searchDivisor n i + total (divisorsDown n (searchDivisor n i - 1))) =
          ts + searchDivisor n i * 10 + 10 * total (divisorsDown n (searchDivisor n i - 1)) := by
        ring
      rw [divisorsWritesFrom_cons, total_cons, hturn]
      rw [hturn] at times
      obtain ⟨heap, hothers⟩ := ih (searchDivisor n i - 1) (by omega) _ times
      exact ⟨heap, divisors_turn_trail hzero (by omega) hothers⟩

theorem divisors_trail (ts n : ℕ) (times : ts + 10 * ∑ d ∈ n.divisors, d < u64Size) :
    ∃ heap, Trail p ((Launch.divisors n).activation ts) (divisorsWrites p ts n)
      ⟨ts + 10 * ∑ d ∈ n.divisors, d, [.state .completed], heap⟩ := by
  rw [← divisorsUpTo_self, ← total_divisorsDown] at times ⊢
  obtain ⟨heap, hloop⟩ := divisors_loop_trail ts n n times
  exact ⟨heap, .silent (stepTask_divisorsBegin p ts n n) (le_refl ts) hloop⟩

/-- Where the task can be, with its cursor: what it prints is a number that the search has found. -/
inductive DivisorsAt (n : ℕ) : Activation → Prop where
  | begins (ts i : ℕ) : DivisorsAt n ⟨ts, [.state .divisorsTaskBegin], .divisors ⟨n, i⟩⟩
  | searches (ts i : ℕ) : DivisorsAt n ⟨ts, [.state .divisorsTaskIteration], .divisors ⟨n, i⟩⟩
  | prints (ts i : ℕ) (found : i ≠ 0) :
      DivisorsAt n ⟨ts, [.state .divisorsPrintAndMoveOn], .divisors ⟨n, i⟩⟩
  | completed (ts i : ℕ) : DivisorsAt n ⟨ts, [.state .completed], .divisors ⟨n, i⟩⟩

theorem DivisorsAt.requeued {n : ℕ} {c next : Activation} {written : Option String}
    (h : DivisorsAt n c) (step : stepTask p c = .ok (.requeued written next)) :
    DivisorsAt n next := by
  cases h with
  | begins ts i =>
    rw [stepTask_divisorsBegin] at step
    cases step
    exact .searches ts n
  | searches ts i =>
    rw [stepTask_divisorsIteration] at step
    split_ifs at step with hzero
    · cases step
      exact .completed ts i
    · obtain ⟨sleepMs, _, step⟩ := except_bind_ok.mp step
      obtain ⟨wake, _, step⟩ := except_bind_ok.mp step
      cases step
      exact .prints wake _ hzero
  | prints ts i found =>
    rw [stepTask_divisorsPrint] at step
    obtain ⟨i', _, step⟩ := except_bind_ok.mp step
    cases step
    exact .searches ts i'
  | completed ts i =>
    rw [stepTask_completed] at step
    cases step

/-- Wherever the task gets, in any build: the search from its cursor ends without a panic, and the
cursor is above zero where it is decremented after the write. -/
theorem divisors_cursor {ts n k : ℕ} {c : Activation}
    {os : List (LogicalTimeAbsoluteMs × String)}
    (reached : (solo p).after (some ((Launch.divisors n).activation ts)) k = some (some c, os)) :
    ∃ i, c.heap = .divisors ⟨n, i⟩ ∧
      searchLoop true n (i + 1) i = some (searchDivisor n i) ∧
      (c.stack = [.state .divisorsPrintAndMoveOn] → u64Sub true i 1 = some (i - 1)) := by
  have hat : DivisorsAt n c :=
    solo_induction (fun _ _ _ h step => h.requeued step) (.begins ts n) reached
  cases hat with
  | prints ts i found =>
    exact ⟨i, rfl, searchLoop_eq true n i, fun _ => u64Sub_of_le (Nat.pos_of_ne_zero found)⟩
  | begins ts i => exact ⟨i, rfl, searchLoop_eq true n i, (nomatch ·)⟩
  | searches ts i => exact ⟨i, rfl, searchLoop_eq true n i, (nomatch ·)⟩
  | completed ts i => exact ⟨i, rfl, searchLoop_eq true n i, (nomatch ·)⟩

/-- The task that a request for the divisors of `n` launches at `ts` writes them from the greatest
down, each at ten times the sum of the divisors up to it, and then its last line, and completes;
its cursor is never decremented below zero, and no remainder is taken by zero. -/
theorem divisors_listed (p : Profile) (ts n : ℕ)
    (times : ts + 10 * ∑ d ∈ n.divisors, d < u64Size) :
    ((divisorsDown n n).Pairwise (· > ·) ∧ ∀ d, d ∈ divisorsDown n n ↔ d ∈ n.divisors) ∧
    (∃ steps, (solo p).after (some ((Launch.divisors n).activation ts)) steps =
      some (none, divisorsWrites p ts n)) ∧
    (∀ k c os, (solo p).after (some ((Launch.divisors n).activation ts)) k = some (some c, os) →
      ∃ i, c.heap = .divisors ⟨n, i⟩ ∧
        searchLoop true n (i + 1) i = some (searchDivisor n i) ∧
        (c.stack = [.state .divisorsPrintAndMoveOn] → u64Sub true i 1 = some (i - 1))) ∧
    ∀ (W : Type) (H : PendingHeap) (inputs : List (Input W)) (fsm : MaroonRuntime W H)
      (events : List (Event W)) (taskId : MaroonTaskId) (writer : W),
      (runtime p W H).run (MaroonRuntime.new W H) inputs = some (fsm, events) →
      IdsFit p inputs → Event.scheduled taskId writer (.divisors n) ts ∈ events →
      outputsOf taskId events <+: divisorsWrites p ts n ∧
      (taskId ∉ fsm.activeTasks → outputsOf taskId events = divisorsWrites p ts n) ∧
      ((∀ t ∈ H.elems fsm.pendingOperations,
          ts + 10 * ∑ d ∈ n.divisors, d < t.scheduledTimestamp) →
        taskId ∉ fsm.activeTasks) := by
  obtain ⟨heap, htrail⟩ := divisors_trail (p := p) ts n times
  refine ⟨⟨divisorsDown_decreasing n n, fun _ => mem_divisorsDown_self⟩, htrail.completes,
    fun _ _ _ => divisors_cursor, ?_⟩
  intro W H inputs fsm events taskId writer run fit launched
  exact htrail.in_runtime run fit launched

def divisorsOfTwelveInputs : List (Input String) :=
  .schedule "writer" (.divisors 12) 0 :: List.replicate 16 (.iterate 1000 (.ok ()))

theorem divisors_of_twelve : ∃ fsm events,
    (runtime ⟨true, true⟩ String .list).run (MaroonRuntime.new String .list)
      divisorsOfTwelveInputs = some (fsm, events) ∧
    1 ∉ fsm.activeTasks ∧
    outputsOf 1 events = [(120, "12%12==0"), (180, "12%6==0"), (220, "12%4==0"), (250, "12%3==0"),
      (270, "12%2==0"), (280, "12%1==0"), (280, "12!")] := by
  have hrun : ((runtime ⟨true, true⟩ String .list).run (MaroonRuntime.new String .list)
      divisorsOfTwelveInputs).map (fun r =>
        (r.2.head?, Multiset.card (PendingHeap.list.elems r.1.pendingOperations))) =
      some (some (.scheduled 1 "writer" (.divisors 12) 0), 0) := by
    decide +kernel
  obtain ⟨⟨fsm, events⟩, run, heq⟩ := Option.map_eq_some_iff.mp hrun
  obtain ⟨hhead, hpending⟩ := Prod.mk.inj heq
  have times : 0 + 10 * ∑ d ∈ Nat.divisors 12, d < u64Size := by decide
  have htask := (divisors_listed ⟨true, true⟩ 0 12 times).2.2.2 String .list _ fsm events 1
    "writer" run (fun _ => by decide) (List.mem_of_mem_head? hhead)
  have hgone : 1 ∉ fsm.activeTasks := htask.2.2 fun t ht => by
    rw [Multiset.card_eq_zero.mp hpending] at ht
    exact absurd ht (Multiset.notMem_zero t)
  exact ⟨fsm, events, run, hgone, (htask.2.1 hgone).trans (by decide +kernel)⟩

end RustExperiments.Maroon
