/- module: RustExperiments/Lib/Hidden
   digest: Code with requests that do not touch the store, and the same code without them. -/

import RustExperiments.Lib.Proc

set_option autoImplicit false
set_option relaxedAutoImplicit false

namespace RustExperiments.Lib.Proc

variable {Q : Type} {A : Q → Type} {R R' R'' R''' : Type}

section Runs

variable {S E : Type} {perform : (q : Q) → E → S → A q × S}

theorem machine_bind {p : Proc Q A R} {f : R → Proc Q A R'} {s s' : S} {p' : Proc Q A R'}
    {inputs : List E} {answers : List (Σ q, A q)}
    (run : (machine perform).run (p >>= f, s) inputs = some ((p', s'), answers)) :
    (∃ p₁, (machine perform).run (p, s) inputs = some ((p₁, s'), answers) ∧ p' = p₁ >>= f) ∨
      ∃ i₁ i₂ r mid a₁ a₂, inputs = i₁ ++ i₂ ∧ answers = a₁ ++ a₂ ∧
        (machine perform).run (p, s) i₁ = some ((.ret r, mid), a₁) ∧
        (machine perform).run (f r, mid) i₂ = some ((p', s'), a₂) := by
  induction inputs generalizing p s answers with
  | nil =>
    cases run
    exact Or.inl ⟨p, rfl, rfl⟩
  | cons e inputs ih =>
    cases p with
    | ret r => exact Or.inr ⟨[], e :: inputs, r, s, [], answers, rfl, rfl, rfl, run⟩
    | await q k =>
      obtain ⟨⟨p₂, s₂⟩, o₁, o₂, hstep, hrest, rfl⟩ := (Machine.run_cons_iff _).mp run
      cases hstep
      have hfirst : (machine perform).step (.await q k, s) e =
          some ((k (perform q e s).1, (perform q e s).2), [⟨q, (perform q e s).1⟩]) := rfl
      rcases ih hrest with ⟨p₁, hrun, hp⟩ | ⟨i₁, i₂, r, mid, a₁, a₂, rfl, rfl, hrun, hlast⟩
      · exact Or.inl ⟨p₁, (Machine.run_cons_iff _).mpr ⟨_, _, _, hfirst, hrun, rfl⟩, hp⟩
      · exact Or.inr ⟨e :: i₁, i₂, r, mid, _, a₂, rfl, rfl,
          (Machine.run_cons_iff _).mpr ⟨_, _, _, hfirst, hrun, rfl⟩, hlast⟩

end Runs

section Hiding

variable (hidden : Q → Bool)

/-- The second code asks for what the first one does, but for the requests that are hidden. -/
inductive Hides (rel : R → R' → Prop) : Proc Q A R → Proc Q A R' → Prop where
  | ret {r : R} {r' : R'} (related : rel r r') : Hides rel (.ret r) (.ret r')
  | shown {q : Q} {k : A q → Proc Q A R} {k' : A q → Proc Q A R'} (shows : hidden q = false)
      (rest : ∀ a, Hides rel (k a) (k' a)) : Hides rel (.await q k) (.await q k')
  | skipped {q : Q} {k : A q → Proc Q A R} {p' : Proc Q A R'} (hides : hidden q = true)
      (rest : ∀ a, Hides rel (k a) p') : Hides rel (.await q k) p'

variable {hidden} {rel : R → R' → Prop}

theorem Hides.bind {rel' : R'' → R''' → Prop} {p : Proc Q A R} {p' : Proc Q A R'}
    {f : R → Proc Q A R''} {f' : R' → Proc Q A R'''} (h : Hides hidden rel p p')
    (others : ∀ r r', rel r r' → Hides hidden rel' (f r) (f' r')) :
    Hides hidden rel' (p >>= f) (p' >>= f') := by
  induction h with
  | ret related => exact others _ _ related
  | shown shows _ ih => exact .shown shows ih
  | skipped hides _ ih => exact .skipped hides ih

theorem Hides.asks [∀ q, Nonempty (A q)] {p : Proc Q A R} {q : Q} {k : A q → Proc Q A R'}
    (h : Hides hidden rel p (.await q k)) : hidden q = false ∧
      ∀ a, ∃ p₁, Hides hidden rel p₁ (k a) := by
  generalize hp : (Proc.await q k : Proc Q A R') = p' at h
  induction h with
  | ret related => cases hp
  | shown shows rest _ =>
    cases hp
    exact ⟨shows, fun a => ⟨_, rest a⟩⟩
  | @skipped q' _ _ _ _ ih => exact ih (Classical.arbitrary (A q')) hp

section Simulation

variable {S E : Type} {perform : (q : Q) → E → S → A q × S}

def shownInputs (hidden : Q → Bool) (inputs : List E) (answers : List (Σ q, A q)) : List E :=
  ((inputs.zip answers).filter fun x => !hidden x.2.1).map Prod.fst

def shownAnswers (hidden : Q → Bool) (answers : List (Σ q, A q)) : List (Σ q, A q) :=
  answers.filter fun a => !hidden a.1

/-- Without the hidden requests, which do not touch the store, the code takes the same stores
through the same answers. -/
theorem Hides.run (keeps : ∀ q e s, hidden q = true → (perform q e s).2 = s) {p p₁ : Proc Q A R}
    {p' : Proc Q A R'} (h : Hides hidden rel p p') {s s₁ : S} {inputs : List E}
    {answers : List (Σ q, A q)}
    (run : (machine perform).run (p, s) inputs = some ((p₁, s₁), answers)) :
    ∃ p₁', (machine perform).run (p', s) (shownInputs hidden inputs answers) =
      some ((p₁', s₁), shownAnswers hidden answers) ∧ Hides hidden rel p₁ p₁' := by
  induction inputs generalizing p p' s answers with
  | nil =>
    cases run
    exact ⟨p', rfl, h⟩
  | cons e inputs ih =>
    obtain ⟨⟨p₂, s₂⟩, o₁, o₂, hstep, hrest, rfl⟩ := (Machine.run_cons_iff _).mp run
    cases h with
    | ret related => cases hstep
    | @shown q k k' shows rest =>
      cases hstep
      obtain ⟨p₁', hrun, hhides⟩ := ih (rest _) hrest
      refine ⟨p₁', ?_, hhides⟩
      have hinputs : shownInputs hidden (e :: inputs) (⟨q, (perform q e s).1⟩ :: o₂) =
          e :: shownInputs hidden inputs o₂ := by
        simp [shownInputs, shows]
      have hanswers : shownAnswers hidden (⟨q, (perform q e s).1⟩ :: o₂) =
          ⟨q, (perform q e s).1⟩ :: shownAnswers hidden o₂ := by
        simp [shownAnswers, shows]
      rw [List.singleton_append, hinputs, hanswers]
      exact (Machine.run_cons_iff _).mpr ⟨_, _, _, rfl, hrun, rfl⟩
    | @skipped q k p' hides rest =>
      cases hstep
      rw [keeps q e s hides] at hrest
      obtain ⟨p₁', hrun, hhides⟩ := ih (rest _) hrest
      refine ⟨p₁', ?_, hhides⟩
      have hinputs : shownInputs hidden (e :: inputs) (⟨q, (perform q e s).1⟩ :: o₂) =
          shownInputs hidden inputs o₂ := by
        simp [shownInputs, hides]
      have hanswers : shownAnswers hidden (⟨q, (perform q e s).1⟩ :: o₂) =
          shownAnswers hidden o₂ := by
        simp [shownAnswers, hides]
      rw [List.singleton_append, hinputs, hanswers]
      exact hrun

theorem Hides.silent [∀ q, Nonempty (A q)] {p : Proc Q A R} {p' p₁ : Proc Q A R'}
    (h : Hides hidden rel p p') {s s₁ : S} {inputs : List E} {answers : List (Σ q, A q)}
    (run : (machine perform).run (p', s) inputs = some ((p₁, s₁), answers)) :
    ∀ a ∈ answers, hidden a.1 = false := by
  induction inputs generalizing p p' s answers with
  | nil =>
    cases run
    exact fun _ ha => by cases ha
  | cons e inputs ih =>
    obtain ⟨⟨p₂, s₂⟩, o₁, o₂, hstep, hrest, rfl⟩ := (Machine.run_cons_iff _).mp run
    cases p' with
    | ret r => cases hstep
    | await q k =>
      cases hstep
      obtain ⟨hshows, hothers⟩ := h.asks
      obtain ⟨p₃, hhides⟩ := hothers (perform q e s).1
      intro a ha
      rcases List.mem_cons.mp ha with rfl | hmem
      · exact hshows
      · exact ih hhides hrest a hmem

end Simulation

end Hiding

end RustExperiments.Lib.Proc
