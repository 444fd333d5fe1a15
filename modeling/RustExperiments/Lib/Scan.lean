/- module: RustExperiments/Lib/Scan
   digest: Reads of consecutive keys that stop at the first one without a value. -/

import Mathlib.Data.Finset.Sort
import Mathlib.Data.List.Infix
import Mathlib.Data.List.Range

set_option autoImplicit false
set_option relaxedAutoImplicit false

namespace RustExperiments.Lib.Scan

variable {β : Type} (f : ℕ → Option β)

/-- The values of `count` keys from `first` on, in the order of the keys. -/
def all (first count : ℕ) : List β := (List.range' first count).filterMap f

/-- The same up to the first key without a value. -/
def upToGap : ℕ → ℕ → List β
  | _, 0 => []
  | first, count + 1 =>
    match f first with
    | some v => v :: upToGap (first + 1) count
    | none => []

/-- No key of the range without a value lies below one that has a value. -/
def Gapless (first count : ℕ) : Prop :=
  ∀ i j, first ≤ i → i < j → j < first + count → (f j).isSome → (f i).isSome

variable {f}

theorem all_succ_some {first count : ℕ} {v : β} (h : f first = some v) :
    all f first (count + 1) = v :: all f (first + 1) count := by
  rw [all, List.range'_succ, List.filterMap_cons, h, all]

theorem all_succ_none {first count : ℕ} (h : f first = none) :
    all f first (count + 1) = all f (first + 1) count := by
  rw [all, List.range'_succ, List.filterMap_cons, h, all]

theorem all_add (first n k : ℕ) : all f first (n + k) = all f first n ++ all f (first + n) k := by
  simp only [all, ← List.range'_append_1, List.filterMap_append]

theorem all_eq_nil_iff {first count : ℕ} :
    all f first count = [] ↔ ∀ i, first ≤ i → i < first + count → f i = none := by
  simp only [all, List.filterMap_eq_nil_iff, List.mem_range'_1, and_imp]

theorem upToGap_none {first : ℕ} (h : f first = none) (count : ℕ) : upToGap f first count = [] := by
  cases count with
  | zero => rfl
  | succ count => rw [upToGap, h]

theorem all_zero_eq_sort {keys : Finset ℕ} {bound : ℕ} (below : ∀ i ∈ keys, i < bound)
    (inside : ∀ i, (f i).isSome → i ∈ keys) : all f 0 bound = keys.sort.filterMap f := by
  have hkeys : ((List.range' 0 bound).filter (· ∈ keys)).toFinset = keys := by
    ext i
    rw [List.mem_toFinset, List.mem_filter, List.mem_range'_1, decide_eq_true_iff]
    exact ⟨fun h => h.2, fun h => ⟨⟨Nat.zero_le i, by have hlt := below i h; omega⟩, h⟩⟩
  have hsorted : keys.sort = (List.range' 0 bound).filter (· ∈ keys) := by
    conv_lhs => rw [← hkeys]
    refine (List.toFinset_sort (· ≤ ·) ?_).mpr ?_
    · exact List.Nodup.filter _ List.nodup_range'
    · exact List.pairwise_le_range'.sublist List.filter_sublist
  rw [hsorted, List.filterMap_filter, all]
  refine List.filterMap_congr fun i _ => ?_
  split_ifs with h
  · rfl
  · cases hi : f i with
    | none => rfl
    | some v => exact absurd (inside i (by rw [hi]; rfl)) (by simpa using h)

theorem upToGap_sublist (first count : ℕ) :
    (upToGap f first count).Sublist (all f first count) := by
  induction count generalizing first with
  | zero => exact List.Sublist.refl _
  | succ count ih =>
    cases hfirst : f first with
    | some v =>
      rw [all_succ_some hfirst, upToGap, hfirst]
      exact (ih (first + 1)).cons_cons v
    | none =>
      rw [upToGap_none hfirst]
      exact List.nil_sublist _

theorem gapless_succ_some {first count : ℕ} {v : β} (h : f first = some v) :
    Gapless f first (count + 1) ↔ Gapless f (first + 1) count := by
  constructor
  · intro hgapless i j hi hij hj hsome
    exact hgapless i j (by omega) hij (by omega) hsome
  · intro hgapless i j hi hij hj hsome
    rcases Nat.eq_or_lt_of_le hi with rfl | hlt
    · rw [h]
      rfl
    · exact hgapless i j hlt hij (by omega) hsome

theorem gapless_succ_none {first count : ℕ} (h : f first = none) :
    Gapless f first (count + 1) ↔ all f (first + 1) count = [] := by
  rw [all_eq_nil_iff]
  constructor
  · intro hgapless j hj hlt
    cases hsome : f j with
    | none => rfl
    | some v =>
      have hpresent := hgapless first j (le_refl _) hj (by omega) (by rw [hsome]; rfl)
      rw [h] at hpresent
      cases hpresent
  · intro hnone i j hi hij hj hsome
    rw [hnone j (by omega) (by omega)] at hsome
    cases hsome

theorem upToGap_eq_all_iff (first count : ℕ) :
    upToGap f first count = all f first count ↔ Gapless f first count := by
  induction count generalizing first with
  | zero => exact iff_of_true rfl fun i j hi hij hj => by omega
  | succ count ih =>
    cases hfirst : f first with
    | some v =>
      rw [all_succ_some hfirst, gapless_succ_some hfirst, upToGap, hfirst, ← ih,
        List.cons_inj_right]
    | none =>
      rw [all_succ_none hfirst, gapless_succ_none hfirst, upToGap_none hfirst, eq_comm]

theorem append_eq_append_iff_of_sublist {a a' b b' : List β} (ha : a.Sublist a')
    (hb : b.Sublist b') : a ++ b = a' ++ b' ↔ a = a' ∧ b = b' := by
  constructor
  · intro h
    have hlength := congrArg List.length h
    rw [List.length_append, List.length_append] at hlength
    have hle := ha.length_le
    have hle' := hb.length_le
    exact List.append_inj h (by omega)
  · rintro ⟨rfl, rfl⟩
    rfl

section Pages

variable (f)

/-- Reads of consecutive pages of one size, one after the other. -/
def readPages (first size pages : ℕ) : List β :=
  (List.range pages).flatMap fun k => upToGap f (first + k * size) size

variable {f}

theorem readPages_succ (first size pages : ℕ) :
    readPages f first size (pages + 1) =
      readPages f first size pages ++ upToGap f (first + pages * size) size := by
  rw [readPages, List.range_succ, List.flatMap_append, List.flatMap_singleton, readPages]

theorem readPages_sublist (first size pages : ℕ) :
    (readPages f first size pages).Sublist (all f first (pages * size)) := by
  induction pages with
  | zero => exact List.nil_sublist _
  | succ pages ih =>
    rw [readPages_succ, Nat.succ_mul, all_add]
    exact ih.append (upToGap_sublist _ _)

theorem readPages_eq_all_iff (first size pages : ℕ) :
    readPages f first size pages = all f first (pages * size) ↔
      ∀ k < pages, Gapless f (first + k * size) size := by
  induction pages with
  | zero => exact iff_of_true (by rw [Nat.zero_mul]; rfl) fun k hk => by omega
  | succ pages ih =>
    rw [readPages_succ, Nat.succ_mul, all_add, append_eq_append_iff_of_sublist
      (readPages_sublist first size pages) (upToGap_sublist _ _), ih, upToGap_eq_all_iff]
    constructor
    · rintro ⟨hbefore, hlast⟩ k hk
      rcases Nat.lt_succ_iff_lt_or_eq.mp hk with hlt | rfl
      · exact hbefore k hlt
      · exact hlast
    · intro h
      exact ⟨fun k hk => h k (Nat.lt_succ_of_lt hk), h pages (Nat.lt_succ_self pages)⟩

/-- From zero on they are complete if, besides, nothing lies below the first of them. -/
theorem readPages_eq_all_zero_iff (first size pages : ℕ) :
    readPages f first size pages = all f 0 (first + pages * size) ↔
      (∀ i < first, f i = none) ∧ ∀ k < pages, Gapless f (first + k * size) size := by
  have hbelow : ([] : List β) = all f 0 first ↔ ∀ i < first, f i = none := by
    rw [eq_comm, all_eq_nil_iff]
    simp only [Nat.zero_le, Nat.zero_add, true_imp_iff]
  rw [← readPages_eq_all_iff, ← hbelow, all_add, Nat.zero_add,
    ← append_eq_append_iff_of_sublist (List.nil_sublist _) (readPages_sublist first size pages),
    List.nil_append]

end Pages

end RustExperiments.Lib.Scan
