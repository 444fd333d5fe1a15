/- module: RustExperiments/Lib/Table
   digest: Finite tables with their point-update equations. -/

import Mathlib.Algebra.BigOperators.Group.Finset.Basic
import Mathlib.Data.Finmap

set_option autoImplicit false
set_option relaxedAutoImplicit false

namespace RustExperiments.Lib

universe u v

abbrev Table (K : Type u) (V : Type v) := Finmap (fun _ : K => V)

namespace Table

variable {K : Type u} {V : Type v} [DecidableEq K]

@[simp] theorem lookup_insert_ite (t : Table K V) (k k' : K) (v : V) :
    Finmap.lookup k' (Finmap.insert k v t) = if k' = k then some v else Finmap.lookup k' t := by
  split_ifs with h
  · subst h
    exact Finmap.lookup_insert t
  · exact Finmap.lookup_insert_of_ne t h

@[simp] theorem lookup_erase_ite (t : Table K V) (k k' : K) :
    Finmap.lookup k' (Finmap.erase k t) = if k' = k then none else Finmap.lookup k' t := by
  split_ifs with h
  · subst h
    exact Finmap.lookup_erase k' t
  · exact Finmap.lookup_erase_ne h

theorem insert_erase_self (t : Table K V) (k : K) (v : V) :
    Finmap.insert k v (Finmap.erase k t) = Finmap.insert k v t := by
  apply Finmap.ext_lookup
  intro x
  by_cases h : x = k <;> simp [h]

theorem erase_erase_self (t : Table K V) (k : K) :
    Finmap.erase k (Finmap.erase k t) = Finmap.erase k t := by
  apply Finmap.ext_lookup
  intro x
  by_cases h : x = k <;> simp [h]

theorem mem_iff_isSome (t : Table K V) (k : K) : k ∈ t ↔ (Finmap.lookup k t).isSome := by
  rw [Finmap.mem_iff, Option.isSome_iff_exists]

theorem insert_lookup_self (t : Table K V) {k : K} {v : V}
    (h : Finmap.lookup k t = some v) : Finmap.insert k v t = t := by
  apply Finmap.ext_lookup
  intro x
  by_cases hx : x = k
  · subst hx
    simp [h]
  · simp [hx]

section Weight

variable (f : V → ℕ)

def weight (t : Table K V) : ℕ := ∑ k ∈ t.keys, (Finmap.lookup k t).elim 0 f

theorem weight_erase (t : Table K V) {k : K} {v : V} (h : Finmap.lookup k t = some v) :
    weight f (Finmap.erase k t) + f v = weight f t := by
  have hmem : k ∈ t.keys := Finmap.mem_keys.mpr (Finmap.mem_iff.mpr ⟨v, h⟩)
  have hothers : weight f (Finmap.erase k t) =
      ∑ x ∈ t.keys.erase k, (Finmap.lookup x t).elim 0 f := by
    rw [weight, Finmap.keys_erase]
    refine Finset.sum_congr rfl fun x hx => ?_
    rw [lookup_erase_ite, if_neg (Finset.ne_of_mem_erase hx)]
  rw [hothers, weight, ← Finset.sum_erase_add _ _ hmem, h]
  rfl

theorem weight_replace (t : Table K V) {k : K} {v : V} (h : Finmap.lookup k t = some v) (v' : V) :
    weight f (Finmap.insert k v' t) + f v = weight f t + f v' := by
  have herase : Finmap.erase k (Finmap.insert k v' t) = Finmap.erase k t := by
    apply Finmap.ext_lookup
    intro x
    by_cases hx : x = k <;> simp [hx]
  have hnew := weight_erase f (Finmap.insert k v' t) (Finmap.lookup_insert t)
  have hold := weight_erase f t h
  rw [herase] at hnew
  omega

end Weight

end Table

end RustExperiments.Lib
