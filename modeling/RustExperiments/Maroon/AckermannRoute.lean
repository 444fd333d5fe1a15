/- module: RustExperiments/Maroon/AckermannRoute
   digest: Exactly which calls of the Ackermann route come to an end within 64-bit integers. -/

import Mathlib.Order.WellFounded
import Mathlib.Tactic.IntervalCases
import RustExperiments.Maroon.Ackermann

set_option autoImplicit false
set_option relaxedAutoImplicit false

namespace RustExperiments.Maroon

open RustExperiments.Lib

/-- The path parameters of the route are `i64`. -/
def InI64 (v : ℤ) : Prop := -2 ^ 63 ≤ v ∧ v < 2 ^ 63

instance (v : ℤ) : Decidable (InI64 v) := inferInstanceAs (Decidable (_ ∧ _))

/-- The result of an `i64` operation whose exact value is `v`. -/
def i64Fit (checks : Bool) (v : ℤ) : Option ℤ :=
  if InI64 v then some v else if checks then none else some (v.bmod (2 ^ 64))

theorem i64Fit_checked_iff {v r : ℤ} : i64Fit true v = some r ↔ InI64 v ∧ r = v := by
  by_cases h : InI64 v
  · simp [i64Fit, h, eq_comm]
  · simp [i64Fit, h]

section Recursion

/-- What a call of `async_ack` returns, with the exact results of its operations. -/
inductive AckReturns : ℤ → ℤ → ℤ → Prop where
  | base (n : ℤ) : AckReturns 0 n (n + 1)
  | zero {m r : ℤ} (hm : m ≠ 0) (call : AckReturns (m - 1) 1 r) : AckReturns m 0 r
  | step {m n inner r : ℤ} (hm : m ≠ 0) (hn : n ≠ 0) (first : AckReturns m (n - 1) inner)
      (second : AckReturns (m - 1) inner r) : AckReturns m n r

/-- The calls, on the left, that a call, on the right, makes in its turn. -/
inductive NestedCall : ℤ × ℤ → ℤ × ℤ → Prop where
  | zero {m : ℤ} (hm : m ≠ 0) : NestedCall (m - 1, 1) (m, 0)
  | inner {m n : ℤ} (hm : m ≠ 0) (hn : n ≠ 0) : NestedCall (m, n - 1) (m, n)
  | outer {m n r : ℤ} (hm : m ≠ 0) (hn : n ≠ 0) (returned : AckReturns m (n - 1) r) :
      NestedCall (m - 1, r) (m, n)

def CalledFrom (caller callee : ℤ × ℤ) : Prop :=
  Relation.ReflTransGen (fun a b => NestedCall b a) caller callee

/-- No chain of nested calls is infinite, and no `n + 1` of a base case leaves the range. -/
def ComesToAnEnd (m n : ℤ) : Prop :=
  (¬ ∃ chain : ℕ → ℤ × ℤ, chain 0 = (m, n) ∧ ∀ i, NestedCall (chain (i + 1)) (chain i)) ∧
    ∀ k, CalledFrom (m, n) (0, k) → k + 1 < 2 ^ 63

theorem no_chain_iff (c : ℤ × ℤ) :
    (¬ ∃ chain : ℕ → ℤ × ℤ, chain 0 = c ∧ ∀ i, NestedCall (chain (i + 1)) (chain i)) ↔
      Acc NestedCall c := by
  rw [← not_acc_iff_exists_descending_chain, not_not]

theorem cast_succ_sub_one (m : ℕ) : ((m + 1 : ℕ) : ℤ) - 1 = m := by
  rw [Nat.cast_succ, add_sub_cancel_right]

theorem cast_succ_ne_zero (m : ℕ) : ((m + 1 : ℕ) : ℤ) ≠ 0 :=
  Nat.cast_ne_zero.mpr (Nat.succ_ne_zero m)

theorem ackReturns_ackermann (m n : ℕ) : AckReturns m n (ackermann m n) := by
  induction m, n using ackermann.induct with
  | case1 n =>
    rw [ackermann, Nat.cast_succ]
    exact .base n
  | case2 m ih =>
    rw [ackermann]
    exact .zero (cast_succ_ne_zero m) (by rwa [cast_succ_sub_one])
  | case3 m n ihInner ihOuter =>
    rw [ackermann]
    refine .step (cast_succ_ne_zero m) (cast_succ_ne_zero n)
      (?_ : AckReturns _ _ (ackermann (m + 1) n)) ?_
    · rwa [cast_succ_sub_one]
    · rwa [cast_succ_sub_one]

theorem AckReturns.unique {m n r r' : ℤ} (h : AckReturns m n r) (h' : AckReturns m n r') :
    r = r' := by
  induction h generalizing r' with
  | base n =>
    cases h' with
    | base => rfl
    | zero hm => exact absurd rfl hm
    | step hm => exact absurd rfl hm
  | zero hm _ ih =>
    cases h' with
    | base => exact absurd rfl hm
    | zero _ call => exact ih call
    | step _ hn => exact absurd rfl hn
  | step hm hn _ _ ihFirst ihSecond =>
    cases h' with
    | base => exact absurd rfl hm
    | zero => exact absurd rfl hn
    | step _ _ first second =>
      obtain rfl := ihFirst first
      exact ihSecond second

/-- Away from the base case only natural arguments come to a result: below zero the zero tests are
stepped over. -/
theorem AckReturns.natural {m n r : ℤ} (h : AckReturns m n r) : m = 0 ∨ 0 < m ∧ 0 ≤ n := by
  induction h with
  | base n => exact Or.inl rfl
  | zero hm _ ih => omega
  | step hm hn _ _ ihFirst _ => omega

theorem acc_zero (n : ℤ) : Acc NestedCall (0, n) := by
  refine .intro _ fun c h => ?_
  cases h with
  | zero hm => exact absurd rfl hm
  | inner hm => exact absurd rfl hm
  | outer hm => exact absurd rfl hm

theorem nested_cases {x y : ℕ} {c : ℤ × ℤ} (h : NestedCall c (x, y)) :
    ∃ m : ℕ, x = m + 1 ∧ (y = 0 ∧ c = ((m : ℤ), ((1 : ℕ) : ℤ)) ∨
      ∃ n : ℕ, y = n + 1 ∧ (c = (((m + 1 : ℕ) : ℤ), (n : ℤ)) ∨
        c = ((m : ℤ), (ackermann (m + 1) n : ℤ)))) := by
  generalize hcaller : ((x : ℤ), (y : ℤ)) = caller at h
  have hpos {k : ℕ} (hk : (k : ℤ) ≠ 0) : ∃ j, k = j + 1 :=
    Nat.exists_eq_succ_of_ne_zero fun h0 => hk (by rw [h0, Nat.cast_zero])
  cases h with
  | zero hm =>
    obtain ⟨rfl, hy⟩ := Prod.mk.inj hcaller
    obtain ⟨m, rfl⟩ := hpos hm
    refine ⟨m, rfl, Or.inl ⟨Nat.cast_eq_zero.mp hy, ?_⟩⟩
    rw [cast_succ_sub_one, Nat.cast_one]
  | inner hm hn =>
    cases hcaller
    obtain ⟨m, rfl⟩ := hpos hm
    obtain ⟨n, rfl⟩ := hpos hn
    refine ⟨m, rfl, Or.inr ⟨n, rfl, Or.inl ?_⟩⟩
    rw [cast_succ_sub_one]
  | outer hm hn returned =>
    cases hcaller
    obtain ⟨m, rfl⟩ := hpos hm
    obtain ⟨n, rfl⟩ := hpos hn
    refine ⟨m, rfl, Or.inr ⟨n, rfl, Or.inr ?_⟩⟩
    rw [cast_succ_sub_one] at returned ⊢
    rw [returned.unique (ackReturns_ackermann (m + 1) n)]

/-- The lexicographic descent of the reference recursion. -/
theorem acc_natural (m n : ℕ) : Acc NestedCall (m, n) := by
  induction m, n using ackermann.induct with
  | case1 n => exact acc_zero n
  | case2 m ih =>
    refine .intro _ fun c h => ?_
    obtain ⟨m', hm, ⟨_, rfl⟩ | ⟨n', hn, _⟩⟩ := nested_cases h
    · obtain rfl := Nat.succ.inj hm
      exact ih
    · cases hn
  | case3 m n ihInner ihOuter =>
    refine .intro _ fun c h => ?_
    obtain ⟨m', hm, ⟨hn, _⟩ | ⟨n', hn, rfl | rfl⟩⟩ := nested_cases h
    · cases hn
    · obtain rfl := Nat.succ.inj hm
      obtain rfl := Nat.succ.inj hn
      exact ihInner
    · obtain rfl := Nat.succ.inj hm
      obtain rfl := Nat.succ.inj hn
      exact ihOuter

theorem called_le {m n : ℕ} {c : ℤ × ℤ} (h : CalledFrom (m, n) c) :
    ∃ x y : ℕ, c = ((x : ℤ), (y : ℤ)) ∧ ackermann x y ≤ ackermann m n := by
  induction h with
  | refl => exact ⟨m, n, rfl, le_refl _⟩
  | tail _ nested ih =>
    obtain ⟨x, y, rfl, hle⟩ := ih
    obtain ⟨m', rfl, ⟨rfl, rfl⟩ | ⟨n', rfl, rfl | rfl⟩⟩ := nested_cases nested
    · refine ⟨m', 1, rfl, ?_⟩
      rwa [ackermann] at hle
    · refine ⟨m' + 1, n', rfl, le_trans ?_ hle⟩
      rw [ackermann_eq_ack, ackermann_eq_ack]
      exact ack_mono_right (m' + 1) (Nat.le_succ n')
    · refine ⟨m', ackermann (m' + 1) n', rfl, ?_⟩
      rwa [ackermann] at hle

theorem base_called (m n : ℕ) :
    ∃ k : ℕ, CalledFrom (m, n) (0, k) ∧ k + 1 = ackermann m n := by
  induction m, n using ackermann.induct with
  | case1 n => exact ⟨n, .refl, by rw [ackermann]⟩
  | case2 m ih =>
    obtain ⟨k, hcalled, hvalue⟩ := ih
    refine ⟨k, .head ?_ hcalled, by rw [hvalue, ackermann]⟩
    have hcall := NestedCall.zero (cast_succ_ne_zero m)
    rwa [cast_succ_sub_one] at hcall
  | case3 m n _ ihOuter =>
    obtain ⟨k, hcalled, hvalue⟩ := ihOuter
    refine ⟨k, .head ?_ hcalled, by rw [hvalue]; conv_rhs => rw [ackermann]⟩
    have hinner : AckReturns (m + 1 : ℕ) (((n + 1 : ℕ) : ℤ) - 1) (ackermann (m + 1) n) := by
      rw [cast_succ_sub_one]
      exact ackReturns_ackermann (m + 1) n
    have hcall := NestedCall.outer (cast_succ_ne_zero m) (cast_succ_ne_zero n) hinner
    rwa [cast_succ_sub_one] at hcall

/-- From a call below zero the calls go on below zero. -/
theorem not_acc_below {m n : ℤ} (h : m < 0 ∨ m ≠ 0 ∧ n < 0) : ¬ Acc NestedCall (m, n) := by
  intro hacc
  generalize hc : (m, n) = c at hacc
  induction hacc generalizing m n with
  | intro c _ ih =>
    subst hc
    have hm : m ≠ 0 := by omega
    by_cases hn : n = 0
    · subst hn
      exact ih _ (.zero hm) (m := m - 1) (n := 1) (by omega) rfl
    · exact ih _ (.inner hm hn) (m := m) (n := n - 1) (by omega) rfl

end Recursion

section Range

/-- The pairs whose recursion stays in the range. -/
def AckFits (m n : ℤ) : Prop :=
  m = 0 ∧ n ≤ 2 ^ 63 - 2 ∨ 0 ≤ n ∧ (m = 1 ∧ n ≤ 2 ^ 63 - 3 ∨ m = 2 ∧ n ≤ 2 ^ 62 - 2 ∨
    m = 3 ∧ n ≤ 60 ∨ m = 4 ∧ n ≤ 1 ∨ m = 5 ∧ n = 0)

instance (m n : ℤ) : Decidable (AckFits m n) := inferInstanceAs (Decidable (_ ∨ _))

theorem ack_four_one : ack 4 1 = 65533 := by
  rw [ack_succ_succ, ack_succ_zero, ack_three, ack_three]
  rfl

theorem ack_four_two_large : 2 ^ 63 ≤ ack 4 2 := by
  have hmono : ack 3 61 ≤ ack 3 65533 := ack_mono_right 3 (by decide)
  have hlarge : 2 ^ 63 ≤ ack 3 61 := by rw [ack_three]; decide
  rw [ack_succ_succ, ack_four_one]
  exact hlarge.trans hmono

theorem ack_three_lt_iff (n : ℕ) : ack 3 n < 2 ^ 63 ↔ n ≤ 60 := by
  constructor
  · intro h
    by_contra hn
    have hmono : ack 3 61 ≤ ack 3 n := ack_mono_right 3 (by omega)
    have hlarge : 2 ^ 63 ≤ ack 3 61 := by rw [ack_three]; decide
    omega
  · intro h
    have hmono : ack 3 n ≤ ack 3 60 := ack_mono_right 3 h
    have hsmall : ack 3 60 < 2 ^ 63 := by rw [ack_three]; decide
    omega

theorem ack_four_lt_iff (n : ℕ) : ack 4 n < 2 ^ 63 ↔ n ≤ 1 := by
  constructor
  · intro h
    by_contra hn
    have hmono : ack 4 2 ≤ ack 4 n := ack_mono_right 4 (by omega)
    have hlarge := ack_four_two_large
    omega
  · intro h
    have hmono : ack 4 n ≤ ack 4 1 := ack_mono_right 4 h
    rw [ack_four_one] at hmono
    omega

theorem ack_five_lt_iff (n : ℕ) : ack 5 n < 2 ^ 63 ↔ n = 0 := by
  constructor
  · intro h
    by_contra hn
    have hmono : ack 5 1 ≤ ack 5 n := ack_mono_right 5 (by omega)
    have hinner : ack 5 1 = ack 4 65533 := by
      rw [← ack_four_one, ← ack_succ_zero 4]
      exact ack_succ_succ 4 0
    have hmono' : ack 4 2 ≤ ack 4 65533 := ack_mono_right 4 (by decide)
    have hlarge := ack_four_two_large
    omega
  · rintro rfl
    rw [ack_succ_zero, ack_four_one]
    decide

theorem ack_six_large (m n : ℕ) (h : 6 ≤ m) : 2 ^ 63 ≤ ack m n := by
  have hfive : ¬ ack 5 1 < 2 ^ 63 := mt (ack_five_lt_iff 1).mp Nat.one_ne_zero
  have hmono : ack 6 0 ≤ ack m n := ack_le_ack h (Nat.zero_le n)
  rw [ack_succ_zero] at hmono
  omega

theorem ackermann_fits_iff (m n : ℕ) : ackermann m n < 2 ^ 63 ↔ AckFits m n := by
  rw [ackermann_eq_ack, AckFits]
  rcases Nat.lt_or_ge m 6 with hm | hm
  · interval_cases m
    · rw [ack_zero]
      omega
    · rw [ack_one]
      omega
    · rw [ack_two]
      omega
    · rw [ack_three_lt_iff]
      omega
    · rw [ack_four_lt_iff]
      omega
    · rw [ack_five_lt_iff]
      omega
  · have hlarge := ack_six_large m n hm
    omega

end Range

theorem ackFits_cases {m n : ℤ} (h : AckFits m n) :
    m = 0 ∨ ∃ x y : ℕ, m = x ∧ n = y ∧ ackermann x y < 2 ^ 63 := by
  by_cases hm : m = 0
  · exact Or.inl hm
  · obtain ⟨x, rfl⟩ := Int.eq_ofNat_of_zero_le (by unfold AckFits at h; omega : 0 ≤ m)
    obtain ⟨y, rfl⟩ := Int.eq_ofNat_of_zero_le (by unfold AckFits at h; omega : 0 ≤ n)
    exact Or.inr ⟨x, y, rfl, rfl, (ackermann_fits_iff x y).mpr h⟩

theorem comes_to_an_end_iff (m n : ℤ) : ComesToAnEnd m n ↔ AckFits m n := by
  rw [ComesToAnEnd, no_chain_iff]
  constructor
  · rintro ⟨hacc, hbase⟩
    by_cases hm : m = 0
    · subst hm
      have hlast := hbase n .refl
      exact Or.inl ⟨rfl, by omega⟩
    · have hnatural : 0 ≤ m ∧ 0 ≤ n := by
        by_contra hbelow
        exact not_acc_below (by omega) hacc
      obtain ⟨x, rfl⟩ := Int.eq_ofNat_of_zero_le hnatural.1
      obtain ⟨y, rfl⟩ := Int.eq_ofNat_of_zero_le hnatural.2
      obtain ⟨k, hcalled, hvalue⟩ := base_called x y
      have hlast := hbase k hcalled
      exact (ackermann_fits_iff x y).mp (by omega)
  · intro h
    rcases ackFits_cases h with rfl | ⟨x, y, rfl, rfl, hfits⟩
    · refine ⟨acc_zero n, fun k hcalled => ?_⟩
      rcases Relation.ReflTransGen.cases_head hcalled with heq | ⟨c, hnested, _⟩
      · cases heq
        unfold AckFits at h
        omega
      · cases hnested with
        | zero hm => exact absurd rfl hm
        | inner hm => exact absurd rfl hm
        | outer hm => exact absurd rfl hm
    · refine ⟨acc_natural x y, fun k hcalled => ?_⟩
      obtain ⟨x', y', heq, hle⟩ := called_le hcalled
      obtain ⟨hx, rfl⟩ := Prod.mk.inj heq
      obtain rfl : x' = 0 := by omega
      rw [ackermann] at hle
      omega

section Run

variable {writer : ℕ → Except String Unit} {written written' : List String}

theorem ackM_bind_ok_iff {α β : Type} {x : AckM α} {f : α → AckM β} {b : β} :
    (x >>= f).run.run written = some (.ok b, written') ↔
      ∃ a mid, x.run.run written = some (.ok a, mid) ∧
        (f a).run.run mid = some (.ok b, written') := by
  rcases hx : x.run.run written with _ | ⟨e | a, mid⟩
  · simp [ExceptT.run_bind, hx]
  · rw [ackM_bind_error hx]
    simp
  · rw [ackM_bind_ok hx]
    simp

theorem ackArith_checked {op : Arith} {v a : ℤ}
    (h : (ackArith (i64Fit true) op v).run.run written = some (.ok a, written')) :
    a = v ∧ InI64 v := by
  rw [ackArith] at h
  cases hfit : i64Fit true v with
  | none =>
    rw [hfit] at h
    cases h
  | some r =>
    rw [hfit] at h
    obtain ⟨hin, rfl⟩ := i64Fit_checked_iff.mp hfit
    cases h
    exact ⟨rfl, hin⟩

theorem asyncAck_returns {fuel indent : ℕ} {m n r : ℤ}
    (h : (asyncAck (i64Fit true) writer fuel m n indent).run.run written =
      some (.ok r, written')) : AckReturns m n r ∧ r < 2 ^ 63 := by
  induction fuel generalizing m n r indent written written' with
  | zero => cases h
  | succ fuel ih =>
    rw [asyncAck] at h
    split_ifs at h with hm hn
    · subst hm
      obtain ⟨a, _, hadd, hrest⟩ := ackM_bind_ok_iff.mp h
      obtain ⟨rfl, hin⟩ := ackArith_checked hadd
      obtain ⟨_, _, _, hpure⟩ := ackM_bind_ok_iff.mp hrest
      cases hpure
      exact ⟨.base n, hin.2⟩
    · subst hn
      obtain ⟨_, _, _, hopened⟩ := ackM_bind_ok_iff.mp h
      obtain ⟨_, _, hsub, hcalls⟩ := ackM_bind_ok_iff.mp hopened
      obtain ⟨rfl, _⟩ := ackArith_checked hsub
      obtain ⟨_, _, hcall, hclosed⟩ := ackM_bind_ok_iff.mp hcalls
      obtain ⟨_, _, _, hpure⟩ := ackM_bind_ok_iff.mp hclosed
      cases hpure
      obtain ⟨hreturned, hlt⟩ := ih hcall
      exact ⟨.zero hm hreturned, hlt⟩
    · obtain ⟨_, _, _, hopened⟩ := ackM_bind_ok_iff.mp h
      obtain ⟨_, _, hsub, hcalls⟩ := ackM_bind_ok_iff.mp hopened
      obtain ⟨rfl, _⟩ := ackArith_checked hsub
      obtain ⟨_, _, hinner, houters⟩ := ackM_bind_ok_iff.mp hcalls
      obtain ⟨_, _, hsub', houters⟩ := ackM_bind_ok_iff.mp houters
      obtain ⟨rfl, _⟩ := ackArith_checked hsub'
      obtain ⟨_, _, houter, hclosed⟩ := ackM_bind_ok_iff.mp houters
      obtain ⟨_, _, _, hpure⟩ := ackM_bind_ok_iff.mp hclosed
      cases hpure
      obtain ⟨hreturned, hlt⟩ := ih houter
      exact ⟨.step hm hn (ih hinner).1 hreturned, hlt⟩

theorem fits_of_returns {m n r : ℤ} (h : AckReturns m n r) (range : r < 2 ^ 63) :
    AckFits m n := by
  rcases h.natural with rfl | ⟨hm, hn⟩
  · have hbase := h.unique (.base n)
    exact Or.inl ⟨rfl, by omega⟩
  · obtain ⟨x, rfl⟩ := Int.eq_ofNat_of_zero_le hm.le
    obtain ⟨y, rfl⟩ := Int.eq_ofNat_of_zero_le hn
    have hvalue := h.unique (ackReturns_ackermann x y)
    exact (ackermann_fits_iff x y).mp (by omega)

/-- Where the recursion stays in the range the call returns, in any build. -/
theorem asyncAck_ends {m n : ℤ} (hn : InI64 n) (h : AckFits m n) (checks : Bool) :
    ∃ fuel r lines, (asyncAck (i64Fit checks) (fun _ => .ok ()) fuel m n 0).run.run [] =
      some (.ok r, lines) := by
  rcases ackFits_cases h with rfl | ⟨x, y, rfl, rfl, hfits⟩
  · have hin : InI64 (n + 1) := by
      unfold AckFits at h
      unfold InI64 at hn ⊢
      omega
    refine ⟨1, n + 1, [closingLine 0 0 n (n + 1)], ?_⟩
    rw [asyncAck, if_pos rfl, ackArith_ok (if_pos hin), pure_bind,
      ackM_bind_ok (writeText_ok _ rfl)]
    rfl
  · obtain ⟨depth, hcall⟩ := asyncAck_eq (i64Fit checks) x y fun v hv =>
      if_pos (by unfold InI64; omega)
    have hlines : (writeAll (fun _ => .ok ()) (ackLines x y 0)).run.run [] =
        some (.ok (), [] ++ ackLines x y 0) := writeAll_ok _ fun _ _ => rfl
    refine ⟨depth, ackermann x y, ackLines x y 0, ?_⟩
    rw [hcall depth (le_refl _), ackM_bind_ok hlines]
    rfl

end Run

/-- For which `i64` pairs the recursion is well-founded and its base cases do not overflow: below
zero the zero tests are stepped over, and above a few small arguments the values leave the range.
For exactly the same pairs the call returns, in a build with overflow checks, when every line can be
written. -/
theorem ack_route_ends_iff_fits {m n : ℤ} (hn : InI64 n) :
    (ComesToAnEnd m n ↔ AckFits m n) ∧
    ((∃ fuel r lines, (asyncAck (i64Fit true) (fun _ => .ok ()) fuel m n 0).run.run [] =
      some (.ok r, lines)) ↔ AckFits m n) := by
  refine ⟨comes_to_an_end_iff m n, ?_, fun h => asyncAck_ends hn h true⟩
  rintro ⟨fuel, r, lines, hrun⟩
  obtain ⟨hreturned, hlt⟩ := asyncAck_returns hrun
  exact fits_of_returns hreturned hlt

theorem ack_three_four_ends : ComesToAnEnd 3 4 ∧ ∃ fuel r lines,
    (asyncAck (i64Fit true) (fun _ => .ok ()) fuel 3 4 0).run.run [] = some (.ok r, lines) := by
  have h := ack_route_ends_iff_fits (m := 3) (n := 4) (by decide)
  have hfits : AckFits 3 4 := by decide
  exact ⟨h.1.mpr hfits, h.2.mpr hfits⟩

/-- A negative argument and an overflow of the base case. -/
theorem ack_route_without_end :
    InI64 (-1) ∧ InI64 0 ∧ InI64 (2 ^ 63 - 1) ∧
      ¬ ComesToAnEnd (-1) 0 ∧ ¬ ComesToAnEnd 0 (2 ^ 63 - 1) := by
  rw [comes_to_an_end_iff, comes_to_an_end_iff]
  decide

end RustExperiments.Maroon
