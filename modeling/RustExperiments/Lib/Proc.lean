/- module: RustExperiments/Lib/Proc
   digest: Asynchronous code as resumptions, the protocols that it obeys and its sequential runs. -/

import RustExperiments.Lib.Machine

set_option autoImplicit false
set_option relaxedAutoImplicit false

namespace RustExperiments.Lib

/-- Asynchronous code up to its next await: it has returned, or it waits for the answer to a
request and goes on with it. -/
inductive Proc (Q : Type) (A : Q → Type) (R : Type) : Type where
  | ret (r : R)
  | await (q : Q) (k : A q → Proc Q A R)

namespace Proc

variable {Q : Type} {A : Q → Type} {R R' : Type}

protected def bind : Proc Q A R → (R → Proc Q A R') → Proc Q A R'
  | .ret r, f => f r
  | .await q k, f => .await q fun a => (k a).bind f

instance : Monad (Proc Q A) where
  pure := .ret
  bind := Proc.bind

@[simp] theorem pure_eq (r : R) : (pure r : Proc Q A R) = .ret r := rfl

@[simp] theorem ret_bind (r : R) (f : R → Proc Q A R') : (.ret r : Proc Q A R) >>= f = f r := rfl

@[simp] theorem await_bind (q : Q) (k : A q → Proc Q A R) (f : R → Proc Q A R') :
    (.await q k : Proc Q A R) >>= f = .await q fun a => k a >>= f := rfl

/-- Some answers make the code return this. -/
inductive MayReturn : Proc Q A R → R → Prop where
  | ret (r : R) : MayReturn (.ret r) r
  | await {q : Q} {k : A q → Proc Q A R} {r : R} (a : A q) (rest : MayReturn (k a) r) :
    MayReturn (.await q k) r

section Protocol

/-- What a client may ask for, by a ghost state that follows the answers. -/
structure Protocol (Q : Type) (A : Q → Type) (G : Type) where
  allows : G → Q → Prop
  next : G → (q : Q) → A q → G

variable {G : Type}

/-- Code that keeps to a protocol from a ghost state on, whatever it is answered, and returns
only where the postcondition lets it. -/
inductive Obeys (P : Protocol Q A G) (post : G → R → Prop) : G → Proc Q A R → Prop where
  | ret {g : G} {r : R} (returns : post g r) : Obeys P post g (.ret r)
  | await {g : G} {q : Q} {k : A q → Proc Q A R} (allowed : P.allows g q)
      (rest : ∀ a, Obeys P post (P.next g q a) (k a)) : Obeys P post g (.await q k)

variable {P : Protocol Q A G} {g : G}

theorem Obeys.returns {post : G → R → Prop} {p : Proc Q A R} (h : p.Obeys P post g) {r : R}
    (returned : p.MayReturn r) : ∃ g', post g' r := by
  induction returned generalizing g with
  | ret r =>
    cases h with
    | ret returns => exact ⟨g, returns⟩
  | await a _ ih =>
    cases h with
    | await _ rest => exact ih (rest a)

def anything : Protocol Q A Unit where
  allows _ _ := True
  next _ _ _ := ()

theorem obeys_anything (p : Proc Q A R) : p.Obeys anything (fun _ _ => True) () := by
  induction p with
  | ret r => exact .ret trivial
  | await q k ih => exact .await trivial ih

theorem Obeys.mono {post post' : G → R → Prop} {p : Proc Q A R} (h : p.Obeys P post g)
    (weaker : ∀ g' r, post g' r → post' g' r) : p.Obeys P post' g := by
  induction h with
  | ret returns => exact .ret (weaker _ _ returns)
  | await allowed _ ih => exact .await allowed ih

/-- Code that keeps to a protocol keeps to any other one that allows as much, as far as the ghost
states of the two correspond. -/
theorem Obeys.refine {G' : Type} {P' : Protocol Q A G'} {post : G → R → Prop}
    {post' : G' → R → Prop} (rel : G → G' → Prop)
    (allows : ∀ g g' q, rel g g' → P.allows g q → P'.allows g' q)
    (next : ∀ g g' q a, rel g g' → P.allows g q → rel (P.next g q a) (P'.next g' q a))
    (returns : ∀ g g' r, rel g g' → post g r → post' g' r) {p : Proc Q A R}
    (h : p.Obeys P post g) {g' : G'} (related : rel g g') : p.Obeys P' post' g' := by
  induction h generalizing g' with
  | ret returned => exact .ret (returns _ _ _ related returned)
  | await allowed _ ih =>
    exact .await (allows _ _ _ related allowed) fun a => ih a (next _ _ _ a related allowed)

theorem Obeys.bind {post : G → R → Prop} {post' : G → R' → Prop} {p : Proc Q A R}
    {f : R → Proc Q A R'} (h : p.Obeys P post g)
    (rest : ∀ g' r, post g' r → (f r).Obeys P post' g') : (p >>= f).Obeys P post' g := by
  induction h with
  | ret returns => exact rest _ _ returns
  | await allowed _ ih => exact .await allowed ih

theorem Obeys.except_bind {ε α β : Type} {m : ExceptT ε (Proc Q A) α}
    {f : α → ExceptT ε (Proc Q A) β} {post : G → Except ε α → Prop}
    {post' : G → Except ε β → Prop} (h : m.run.Obeys P post g)
    (ok : ∀ g' a, post g' (.ok a) → (f a).run.Obeys P post' g')
    (error : ∀ g' e, post g' (.error e) → post' g' (.error e)) :
    (m >>= f).run.Obeys P post' g := by
  refine h.bind fun g' r hr => ?_
  cases r with
  | ok a => exact ok g' a hr
  | error e => exact .ret (error g' e hr)

end Protocol

section Sequential

variable {S E G : Type} (perform : (q : Q) → E → S → A q × S)

/-- One piece of code run alone against a store. Every input answers the awaited request; the
outputs are the answers. Code that stops short is a run that does not go on. -/
def machine : Machine (Proc Q A R × S) E (Σ q, A q) where
  step
    | (.ret _, _), _ => none
    | (.await q k, s), e => some ((k (perform q e s).1, (perform q e s).2), [⟨q, (perform q e s).1⟩])

variable {perform} {P : Protocol Q A G} {post : G → R → Prop}

theorem machine_ret {r : R} {p : Proc Q A R} {s s' : S} {inputs : List E}
    {answers : List (Σ q, A q)}
    (run : (machine perform).run (.ret r, s) inputs = some ((p, s'), answers)) :
    p = .ret r ∧ s' = s ∧ answers = [] := by
  cases inputs with
  | nil =>
    cases run
    exact ⟨rfl, rfl, rfl⟩
  | cons e inputs =>
    obtain ⟨_, _, _, hstep, _⟩ := (Machine.run_cons_iff _).mp run
    cases hstep

theorem machine_await {q : Q} {k : A q → Proc Q A R} {p : Proc Q A R} {s s' : S} {inputs : List E}
    {answers : List (Σ q, A q)}
    (run : (machine perform).run (.await q k, s) inputs = some ((p, s'), answers)) :
    (p = .await q k ∧ s' = s ∧ answers = []) ∨ ∃ e inputs' answers', inputs = e :: inputs' ∧
      answers = ⟨q, (perform q e s).1⟩ :: answers' ∧
      (machine perform).run (k (perform q e s).1, (perform q e s).2) inputs' =
        some ((p, s'), answers') := by
  cases inputs with
  | nil =>
    cases run
    exact Or.inl ⟨rfl, rfl, rfl⟩
  | cons e inputs =>
    obtain ⟨mid, o₁, o₂, hstep, hrest, rfl⟩ := (Machine.run_cons_iff _).mp run
    cases hstep
    exact Or.inr ⟨e, inputs, o₂, rfl, rfl, hrest⟩

/-- The invariant rule for code that keeps to a protocol. -/
theorem machine_obeys (Inv : G → List (Σ q, A q) → S → Prop)
    (preserved : ∀ g answers s q e, Inv g answers s → P.allows g q →
      Inv (P.next g q (perform q e s).1) (answers ++ [⟨q, (perform q e s).1⟩]) (perform q e s).2)
    {p p' : Proc Q A R} {s s' : S} {g : G} {inputs : List E} {answers : List (Σ q, A q)}
    (obeys : p.Obeys P post g) (initial : Inv g [] s)
    (run : (machine perform).run (p, s) inputs = some ((p', s'), answers)) :
    ∃ g', p'.Obeys P post g' ∧ Inv g' answers s' := by
  refine Machine.run_invariant (machine perform)
    (fun _ answers c => ∃ g', c.1.Obeys P post g' ∧ Inv g' answers c.2) ⟨g, obeys, initial⟩ ?_ run
  rintro _ answers ⟨p, s⟩ e c o _ ⟨g', hobeys, hinv⟩ hstep
  cases hobeys with
  | ret returns => cases hstep
  | @await _ q k allowed rest =>
    cases hstep
    exact ⟨_, rest _, preserved _ _ _ _ e hinv allowed⟩

end Sequential

end Proc

end RustExperiments.Lib
