/- module: RustExperiments/Lib/BinaryHeap
   digest: The documented contract of a max-heap, with a sorted-list implementation. -/

import Mathlib.Data.List.Sort
import Mathlib.Data.Multiset.Basic

set_option autoImplicit false
set_option relaxedAutoImplicit false

namespace RustExperiments.Lib

universe u

/-- An implementation of a max-heap over the order `cmp`. `pop` takes out some greatest
element; which one it takes among equals is up to the carrier, whose internal arrangement
may hold any tie-breaking state. A theorem about every `BinaryHeap` covers them all. -/
structure BinaryHeap (α : Type u) (cmp : α → α → Ordering) where
  Carrier : Type u
  new : Carrier
  push : Carrier → α → Carrier
  peek : Carrier → Option α
  pop : Carrier → Option (α × Carrier)
  elems : Carrier → Multiset α
  elems_new : elems new = 0
  elems_push : ∀ h a, elems (push h a) = a ::ₘ elems h
  peek_eq : ∀ h, peek h = (pop h).map Prod.fst
  pop_none : ∀ h, pop h = none → elems h = 0
  pop_some : ∀ h a h', pop h = some (a, h') →
    elems h = a ::ₘ elems h' ∧ ∀ b ∈ elems h, cmp b a ≠ .gt

namespace BinaryHeap

variable {α : Type u} {cmp : α → α → Ordering}

def sortedList (key : α → ℕ) : BinaryHeap α (fun a b => compare (key b) (key a)) where
  Carrier := {l : List α // l.Pairwise (fun a b => key a ≤ key b)}
  new := ⟨[], List.Pairwise.nil⟩
  push l a :=
    haveI : Std.Total (fun a b : α => key a ≤ key b) := ⟨fun a b => Nat.le_total (key a) (key b)⟩
    haveI : IsTrans α (fun a b : α => key a ≤ key b) := ⟨fun _ _ _ => Nat.le_trans⟩
    ⟨l.1.orderedInsert (fun a b => key a ≤ key b) a, l.2.orderedInsert a l.1⟩
  peek l := l.1.head?
  pop
    | ⟨[], _⟩ => none
    | ⟨a :: l, h⟩ => some (a, ⟨l, h.of_cons⟩)
  elems l := (l.1 : Multiset α)
  elems_new := rfl
  elems_push l a := Multiset.coe_eq_coe.mpr (List.perm_orderedInsert _ a l.1)
  peek_eq := by
    rintro ⟨_ | ⟨a, l⟩, h⟩ <;> rfl
  pop_none := by
    rintro ⟨_ | ⟨a, l⟩, h⟩ hp
    · rfl
    · cases hp
  pop_some := by
    rintro ⟨_ | ⟨a, l⟩, h⟩ b h' hp
    · cases hp
    · cases hp
      refine ⟨rfl, fun b hb => ?_⟩
      have hle : key a ≤ key b := by
        rcases List.mem_cons.mp hb with rfl | hb
        · exact Nat.le_refl _
        · exact List.rel_of_pairwise_cons h hb
      exact compare_gt_iff_gt.not.mpr (Nat.not_lt.mpr hle)

end BinaryHeap

end RustExperiments.Lib
