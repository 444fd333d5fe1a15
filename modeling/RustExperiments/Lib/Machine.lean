/- module: RustExperiments/Lib/Machine
   digest: Deterministic machines driven by input lists, and their invariant rule. -/

import Mathlib.Data.List.Induction
import Mathlib.Data.Option.Basic

set_option autoImplicit false
set_option relaxedAutoImplicit false

namespace RustExperiments.Lib

universe u v w

/-- A machine reads one input at a time and appends to an output tape. All nondeterminism
of the modelled system sits in the inputs; `none` means that the input cannot occur. -/
structure Machine (σ : Type u) (ι : Type v) (ο : Type w) where
  step : σ → ι → Option (σ × List ο)

namespace Machine

variable {σ : Type u} {ι : Type v} {ο : Type w}

/-- The run over a finite input list, with the concatenated outputs. -/
def run (m : Machine σ ι ο) : σ → List ι → Option (σ × List ο)
  | s, [] => some (s, [])
  | s, i :: is =>
    (m.step s i).bind fun p => (run m p.1 is).map fun q => (q.1, p.2 ++ q.2)

@[simp] theorem run_nil (m : Machine σ ι ο) (s : σ) : m.run s [] = some (s, []) := rfl

theorem run_cons_iff (m : Machine σ ι ο) {s t : σ} {i : ι} {is : List ι} {os : List ο} :
    m.run s (i :: is) = some (t, os) ↔
      ∃ mid o₁ o₂, m.step s i = some (mid, o₁) ∧ m.run mid is = some (t, o₂) ∧
        os = o₁ ++ o₂ := by
  simp only [run, Option.bind_eq_some_iff, Option.map_eq_some_iff, Prod.exists, Prod.mk.injEq]
  constructor
  · rintro ⟨mid, o₁, hstep, t', o₂, hrun, rfl, rfl⟩
    exact ⟨mid, o₁, o₂, hstep, hrun, rfl⟩
  · rintro ⟨mid, o₁, o₂, hstep, hrun, rfl⟩
    exact ⟨mid, o₁, hstep, t, o₂, hrun, rfl, rfl⟩

theorem run_append_iff (m : Machine σ ι ο) {s t : σ} {is js : List ι} {os : List ο} :
    m.run s (is ++ js) = some (t, os) ↔
      ∃ mid o₁ o₂, m.run s is = some (mid, o₁) ∧ m.run mid js = some (t, o₂) ∧
        os = o₁ ++ o₂ := by
  induction is generalizing s os with
  | nil => simp
  | cons i is ih =>
    rw [List.cons_append, run_cons_iff]
    constructor
    · rintro ⟨mid, o₁, o₂, hstep, hrun, rfl⟩
      obtain ⟨mid', o₃, o₄, hleft, hright, rfl⟩ := ih.mp hrun
      exact ⟨mid', o₁ ++ o₃, o₄, (run_cons_iff m).mpr ⟨mid, o₁, o₃, hstep, hleft, rfl⟩,
        hright, by rw [List.append_assoc]⟩
    · rintro ⟨mid', o, o₄, hleft, hright, rfl⟩
      obtain ⟨mid, o₁, o₃, hstep, hrun, rfl⟩ := (run_cons_iff m).mp hleft
      exact ⟨mid, o₁, o₃ ++ o₄, hstep, ih.mpr ⟨mid', o₃, o₄, hrun, hright, rfl⟩,
        by rw [List.append_assoc]⟩

theorem run_append (m : Machine σ ι ο) {s mid t : σ} {is js : List ι} {o₁ o₂ : List ο}
    (hleft : m.run s is = some (mid, o₁)) (hright : m.run mid js = some (t, o₂)) :
    m.run s (is ++ js) = some (t, o₁ ++ o₂) :=
  (run_append_iff m).mpr ⟨mid, o₁, o₂, hleft, hright, rfl⟩

theorem run_singleton (m : Machine σ ι ο) {s t : σ} {i : ι} {o : List ο} :
    m.run s [i] = some (t, o) ↔ m.step s i = some (t, o) := by
  rw [run_cons_iff]
  constructor
  · rintro ⟨mid, o₁, o₂, hstep, hrun, rfl⟩
    cases hrun
    simpa using hstep
  · intro h
    exact ⟨t, o, [], h, rfl, by simp⟩

/-- The invariant rule. The invariant may speak of the inputs consumed and of the outputs
produced so far, so history variables need no place in the state. -/
theorem run_invariant (m : Machine σ ι ο) {s₀ : σ} (Inv : List ι → List ο → σ → Prop)
    (initial : Inv [] [] s₀)
    (preserved : ∀ is os s i t o, m.run s₀ is = some (s, os) → Inv is os s →
      m.step s i = some (t, o) → Inv (is ++ [i]) (os ++ o) t)
    {is : List ι} {t : σ} {os : List ο} (h : m.run s₀ is = some (t, os)) :
    Inv is os t := by
  induction is using List.reverseRecOn generalizing t os with
  | nil =>
    cases h
    exact initial
  | append_singleton is i ih =>
    obtain ⟨mid, o₁, o₂, hleft, hright, rfl⟩ := (run_append_iff m).mp h
    exact preserved is o₁ mid i t o₂ hleft (ih hleft) ((run_singleton m).mp hright)

/-- The simulation rule: if every step from related states is matched by a run with the same
outputs, every run is. -/
theorem run_simulates {σ' : Type u} {ι' : Type v} (m : Machine σ ι ο) (m' : Machine σ' ι' ο)
    (R : σ → σ' → Prop)
    (step : ∀ s s' i t o, R s s' → m.step s i = some (t, o) →
      ∃ is t', m'.run s' is = some (t', o) ∧ R t t')
    {s t : σ} {s' : σ'} {is : List ι} {os : List ο} (related : R s s')
    (h : m.run s is = some (t, os)) : ∃ is' t', m'.run s' is' = some (t', os) ∧ R t t' := by
  refine run_invariant m (fun _ os t => ∃ is' t', m'.run s' is' = some (t', os) ∧ R t t')
    ⟨[], s', rfl, related⟩ ?_ h
  rintro _ os u i t o _ ⟨is', u', hrun, hrelated⟩ hstep
  obtain ⟨more, t', hmore, hrelated'⟩ := step u u' i t o hrelated hstep
  exact ⟨is' ++ more, t', run_append m' hrun hmore, hrelated'⟩

/-- Where each step outputs one thing at most, a run can be cut at anything that it output. -/
theorem run_split (m : Machine σ ι ο)
    (single : ∀ s i t o, m.step s i = some (t, o) → o.length ≤ 1) {s t : σ} {is : List ι}
    {before after : List ο} {e : ο} (h : m.run s is = some (t, before ++ e :: after)) :
    ∃ is₁ i is₂ mid mid', is = is₁ ++ i :: is₂ ∧ m.run s is₁ = some (mid, before) ∧
      m.step mid i = some (mid', [e]) ∧ m.run mid' is₂ = some (t, after) := by
  induction is generalizing s before with
  | nil => simp at h
  | cons i is ih =>
    obtain ⟨u, o₁, o₂, hstep, hrun, hout⟩ := (run_cons_iff m).mp h
    have hlength := single s i u o₁ hstep
    rcases o₁ with _ | ⟨x, _ | ⟨y, o₁⟩⟩
    · obtain ⟨is₁, j, is₂, mid, mid', rfl, hleft, hmid, hright⟩ :=
        ih (by rw [hout, List.nil_append]; exact hrun)
      exact ⟨i :: is₁, j, is₂, mid, mid', rfl,
        (run_cons_iff m).mpr ⟨u, [], before, hstep, hleft, rfl⟩, hmid, hright⟩
    · rcases before with _ | ⟨b, before⟩
      · obtain ⟨rfl, rfl⟩ := List.cons.inj hout
        exact ⟨[], i, is, s, u, rfl, rfl, hstep, hrun⟩
      · obtain ⟨rfl, rfl⟩ := List.cons.inj hout
        obtain ⟨is₁, j, is₂, mid, mid', rfl, hleft, hmid, hright⟩ := ih hrun
        exact ⟨i :: is₁, j, is₂, mid, mid', rfl,
          (run_cons_iff m).mpr ⟨u, [b], before, hstep, hleft, rfl⟩, hmid, hright⟩
    · simp at hlength

section Autonomous

variable (m : Machine σ Unit ο)

def after (s : σ) (n : ℕ) : Option (σ × List ο) := m.run s (List.replicate n ())

theorem after_add_iff {s t : σ} {n k : ℕ} {os : List ο} :
    m.after s (n + k) = some (t, os) ↔
      ∃ mid o₁ o₂, m.after s n = some (mid, o₁) ∧ m.after mid k = some (t, o₂) ∧
        os = o₁ ++ o₂ := by
  rw [after, ← List.replicate_append_replicate]
  exact run_append_iff m

theorem after_succ_iff {s t : σ} {n : ℕ} {os : List ο} :
    m.after s (n + 1) = some (t, os) ↔
      ∃ mid o₁ o₂, m.after s n = some (mid, o₁) ∧ m.step mid () = some (t, o₂) ∧
        os = o₁ ++ o₂ := by
  rw [after_add_iff]
  simp only [after, List.replicate_one, run_singleton]

theorem after_prefix {s t u : σ} {n k : ℕ} {os os' : List ο} (h : n ≤ k)
    (short : m.after s n = some (t, os)) (long : m.after s k = some (u, os')) : os <+: os' := by
  obtain ⟨d, rfl⟩ := Nat.exists_eq_add_of_le h
  obtain ⟨mid, o₁, o₂, hleft, _, rfl⟩ := (after_add_iff m).mp long
  obtain ⟨rfl, rfl⟩ := Prod.mk.inj (Option.some.inj (short.symm.trans hleft))
  exact List.prefix_append _ _

theorem after_comparable {s t u : σ} {n k : ℕ} {os os' : List ο}
    (h : m.after s n = some (t, os)) (h' : m.after s k = some (u, os')) :
    os <+: os' ∨ os' <+: os := by
  rcases Nat.le_total n k with hle | hle
  · exact Or.inl (m.after_prefix hle h h')
  · exact Or.inr (m.after_prefix hle h' h)

theorem after_of_final {t : σ} (final : m.step t () = some (t, [])) (k : ℕ) :
    m.after t k = some (t, []) := by
  induction k with
  | zero => rfl
  | succ k ih => exact (after_succ_iff m).mpr ⟨t, [], [], ih, final, rfl⟩

theorem after_whole {s t u : σ} {n k : ℕ} {os os' : List ο}
    (final : m.step t () = some (t, [])) (h : m.after s n = some (t, os))
    (h' : m.after s k = some (u, os')) : os' <+: os := by
  rcases Nat.le_total k n with hle | hle
  · exact m.after_prefix hle h' h
  · obtain ⟨d, rfl⟩ := Nat.exists_eq_add_of_le hle
    obtain ⟨mid, o₁, o₂, hleft, hright, rfl⟩ := (after_add_iff m).mp h'
    obtain ⟨rfl, rfl⟩ := Prod.mk.inj (Option.some.inj (h.symm.trans hleft))
    obtain ⟨_, rfl⟩ := Prod.mk.inj (Option.some.inj ((m.after_of_final final d).symm.trans hright))
    simp

end Autonomous

end Machine

end RustExperiments.Lib
