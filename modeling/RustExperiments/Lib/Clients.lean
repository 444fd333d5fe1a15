/- module: RustExperiments/Lib/Clients
   digest: Any number of asynchronous clients of one store, which can vanish at every await. -/

import RustExperiments.Lib.Proc
import RustExperiments.Lib.Table

set_option autoImplicit false
set_option relaxedAutoImplicit false

namespace RustExperiments.Lib

/-- A live client: it waits for an answer, or nobody waits for the answer any more although
the request can still be performed, or the answer is there and the code has yet to go on. -/
inductive Client (Q : Type) (A : Q → Type) (R : Type) : Type where
  | pending (q : Q) (k : A q → Proc Q A R)
  | detached (q : Q)
  | answered (p : Proc Q A R)

/-- Tasks that run as asynchronous code, the performance of their requests on the store, and
what a restart of the process does to the store. -/
structure Clients (Q : Type) (A : Q → Type) (R T S E : Type) where
  start : T → Proc Q A R
  perform : (q : Q) → E → S → A q × S
  reboot : E → S → S

inductive ClientInput (T E : Type) where
  /-- a task begins and runs up to its first await -/
  | spawn (t : T)
  /-- the request of a client is performed -/
  | perform (i : ℕ) (e : E)
  /-- a client receives its answer and runs up to its next await -/
  | deliver (i : ℕ)
  /-- a client is dropped, its request not performed or its answer not received -/
  | cancel (i : ℕ)
  /-- a client is dropped while its request waits to be performed -/
  | detach (i : ℕ)
  /-- the process ends and is started again -/
  | restart (e : E)

inductive ClientEvent (Q : Type) (A : Q → Type) (R T : Type) : Type where
  | spawned (i : ℕ) (t : T)
  | performed (i : ℕ) (q : Q) (a : A q)
  | returned (i : ℕ) (r : R)

namespace Clients

variable {Q : Type} {A : Q → Type} {R T S E : Type}

structure State (Q : Type) (A : Q → Type) (R S : Type) where
  store : S
  clients : Table ℕ (Client Q A R)
  next : ℕ

def place (clients : Table ℕ (Client Q A R)) (i : ℕ) :
    Proc Q A R → Table ℕ (Client Q A R) × List (ClientEvent Q A R T)
  | .ret r => (clients.erase i, [.returned i r])
  | .await q k => (clients.insert i (.pending q k), [])

theorem place_congr {clients clients' : Table ℕ (Client Q A R)} {i : ℕ}
    (others : ∀ j, j ≠ i → clients.lookup j = clients'.lookup j) (p : Proc Q A R) :
    place (T := T) clients i p = place clients' i p := by
  cases p with
  | ret r =>
    refine Prod.ext (Finmap.ext_lookup fun j => ?_) rfl
    by_cases hj : j = i
    · simp [place, hj]
    · simp [place, hj, others j hj]
  | await q k =>
    refine Prod.ext (Finmap.ext_lookup fun j => ?_) rfl
    by_cases hj : j = i
    · simp [place, hj]
    · simp [place, hj, others j hj]

def machine (sys : Clients Q A R T S E) :
    Machine (State Q A R S) (ClientInput T E) (ClientEvent Q A R T) where
  step s
    | .spawn t =>
      let placed := place s.clients s.next (sys.start t)
      some (⟨s.store, placed.1, s.next + 1⟩, .spawned s.next t :: placed.2)
    | .perform i e =>
      match s.clients.lookup i with
      | some (.pending q k) =>
        let (a, store) := sys.perform q e s.store
        some (⟨store, s.clients.insert i (.answered (k a)), s.next⟩, [.performed i q a])
      | some (.detached q) =>
        let (a, store) := sys.perform q e s.store
        some (⟨store, s.clients.erase i, s.next⟩, [.performed i q a])
      | _ => none
    | .deliver i =>
      match s.clients.lookup i with
      | some (.answered p) =>
        let placed := place s.clients i p
        some (⟨s.store, placed.1, s.next⟩, placed.2)
      | _ => none
    | .cancel i =>
      match s.clients.lookup i with
      | some (.pending _ _) | some (.answered _) =>
        some (⟨s.store, s.clients.erase i, s.next⟩, [])
      | _ => none
    | .detach i =>
      match s.clients.lookup i with
      | some (.pending q _) => some (⟨s.store, s.clients.insert i (.detached q), s.next⟩, [])
      | _ => none
    | .restart e => some (⟨sys.reboot e s.store, ∅, s.next⟩, [])

def State.initial (store : S) : State Q A R S := ⟨store, ∅, 0⟩

section Steps

variable {sys : Clients Q A R T S E} {s t : State Q A R S} {o : List (ClientEvent Q A R T)}

theorem step_perform {i : ℕ} {e : E} (step : sys.machine.step s (.perform i e) = some (t, o)) :
    ∃ q, o = [.performed i q (sys.perform q e s.store).1] ∧
      ((∃ k, s.clients.lookup i = some (.pending q k) ∧
        t = ⟨(sys.perform q e s.store).2,
          s.clients.insert i (.answered (k (sys.perform q e s.store).1)), s.next⟩) ∨
      (s.clients.lookup i = some (.detached q) ∧
        t = ⟨(sys.perform q e s.store).2, s.clients.erase i, s.next⟩)) := by
  simp only [machine] at step
  split at step
  · rename_i q k hlookup
    cases step
    exact ⟨q, rfl, Or.inl ⟨k, hlookup, rfl⟩⟩
  · rename_i q hlookup
    cases step
    exact ⟨q, rfl, Or.inr ⟨hlookup, rfl⟩⟩
  · cases step

theorem step_deliver {i : ℕ} (step : sys.machine.step s (.deliver i) = some (t, o)) :
    ∃ p, s.clients.lookup i = some (.answered p) ∧
      t = ⟨s.store, (place (T := T) s.clients i p).1, s.next⟩ ∧ o = (place s.clients i p).2 := by
  simp only [machine] at step
  split at step
  · rename_i p hlookup
    cases step
    exact ⟨p, hlookup, rfl, rfl⟩
  · cases step

theorem step_cancel {i : ℕ} (step : sys.machine.step s (.cancel i) = some (t, o)) :
    ∃ c, s.clients.lookup i = some c ∧ (∀ q, c ≠ .detached q) ∧
      t = ⟨s.store, s.clients.erase i, s.next⟩ ∧ o = [] := by
  simp only [machine] at step
  split at step
  · rename_i q k hlookup
    cases step
    exact ⟨_, hlookup, nofun, rfl, rfl⟩
  · rename_i p hlookup
    cases step
    exact ⟨_, hlookup, nofun, rfl, rfl⟩
  · cases step

theorem step_detach {i : ℕ} (step : sys.machine.step s (.detach i) = some (t, o)) :
    ∃ q k, s.clients.lookup i = some (.pending q k) ∧
      t = ⟨s.store, s.clients.insert i (.detached q), s.next⟩ ∧ o = [] := by
  simp only [machine] at step
  split at step
  · rename_i q k hlookup
    cases step
    exact ⟨q, k, hlookup, rfl, rfl⟩
  · cases step

end Steps

section InvariantRule

variable {G : Type}

theorem update_cases {Γ : ℕ → Option G} {i j : ℕ} {x : Option G} {g : G}
    (h : Function.update Γ i x j = some g) : j = i ∧ x = some g ∨ j ≠ i ∧ Γ j = some g := by
  by_cases hji : j = i
  · subst hji
    rw [Function.update_self] at h
    exact Or.inl ⟨rfl, h⟩
  · rw [Function.update_of_ne hji] at h
    exact Or.inr ⟨hji, h⟩

theorem update_none_cases {Γ : ℕ → Option G} {i j : ℕ} {g : G}
    (h : Function.update Γ i none j = some g) : Γ j = some g := by
  rcases update_cases h with ⟨_, hnone⟩ | ⟨_, hold⟩
  · cases hnone
  · exact hold

/-- What is left of a client keeps to the protocol from this ghost state on. -/
def ClientObeys (P : Proc.Protocol Q A G) (post : G → R → Prop) : Client Q A R → G → Prop
  | .pending q k, g => P.allows g q ∧ ∀ a, (k a).Obeys P post (P.next g q a)
  | .detached q, g => P.allows g q
  | .answered p, g => p.Obeys P post g

/-- What has to be shown of an invariant over the history, the store and the ghost states of
the live clients. The code of the clients enters through the protocol alone. -/
structure Preserved (sys : Clients Q A R T S E) (P : Proc.Protocol Q A G)
    (post : G → R → Prop) (fresh : T → G)
    (Inv : List (ClientEvent Q A R T) → S → (ℕ → Option G) → Prop) : Prop where
  obeys : ∀ t, (sys.start t).Obeys P post (fresh t)
  spawn : ∀ {es s Γ} i t, Inv es s Γ → Γ i = none → (∀ t', .spawned i t' ∉ es) →
    Inv (es ++ [.spawned i t]) s (Function.update Γ i (some (fresh t)))
  perform : ∀ {es s Γ} i g q e, Inv es s Γ → Γ i = some g → P.allows g q →
    Inv (es ++ [.performed i q (sys.perform q e s).1]) (sys.perform q e s).2
      (Function.update Γ i (some (P.next g q (sys.perform q e s).1)))
  returned : ∀ {es s Γ} i g r, Inv es s Γ → Γ i = some g → post g r →
    Inv (es ++ [.returned i r]) s (Function.update Γ i none)
  drop : ∀ {es s Γ} i, Inv es s Γ → Inv es s (Function.update Γ i none)
  restart : ∀ {es s Γ} e, Inv es s Γ → Inv es (sys.reboot e s) fun _ => none

/-- The same for the runs whose inputs all meet a condition on the history and the state before
them. -/
structure PreservedUnder (sys : Clients Q A R T S E) (P : Proc.Protocol Q A G)
    (post : G → R → Prop) (fresh : T → G)
    (C : List (ClientEvent Q A R T) → State Q A R S → ClientInput T E → Prop)
    (Inv : List (ClientEvent Q A R T) → S → (ℕ → Option G) → Prop) : Prop where
  obeys : ∀ t, (sys.start t).Obeys P post (fresh t)
  spawn : ∀ {es s Γ} t, C es s (.spawn t) → Inv es s.store Γ → Γ s.next = none →
    (∀ t', .spawned s.next t' ∉ es) →
    Inv (es ++ [.spawned s.next t]) s.store (Function.update Γ s.next (some (fresh t)))
  perform : ∀ {es s Γ} i g q k e, C es s (.perform i e) →
    s.clients.lookup i = some (.pending q k) → Inv es s.store Γ → Γ i = some g → P.allows g q →
    Inv (es ++ [.performed i q (sys.perform q e s.store).1]) (sys.perform q e s.store).2
      (Function.update Γ i (some (P.next g q (sys.perform q e s.store).1)))
  finish : ∀ {es s Γ} i g q e, C es s (.perform i e) → s.clients.lookup i = some (.detached q) →
    Inv es s.store Γ → Γ i = some g → P.allows g q →
    Inv (es ++ [.performed i q (sys.perform q e s.store).1]) (sys.perform q e s.store).2
      (Function.update Γ i none)
  returned : ∀ {es s Γ} i g r, Inv es s Γ → Γ i = some g → post g r →
    Inv (es ++ [.returned i r]) s (Function.update Γ i none)
  cancel : ∀ {es s Γ} i, C es s (.cancel i) → Inv es s.store Γ →
    Inv es s.store (Function.update Γ i none)
  restart : ∀ {es s Γ} e, C es s (.restart e) → Inv es s.store Γ →
    Inv es (sys.reboot e s.store) fun _ => none

/-- Every input of the run meets the condition. -/
def Meets (sys : Clients Q A R T S E)
    (C : List (ClientEvent Q A R T) → State Q A R S → ClientInput T E → Prop)
    (es : List (ClientEvent Q A R T)) (s : State Q A R S) (inputs : List (ClientInput T E)) : Prop :=
  ∀ before input after mid es', inputs = before ++ input :: after →
    sys.machine.run s before = some (mid, es') → C (es ++ es') mid input

/-- Ghost states that fit the live clients. -/
structure Ghosted (P : Proc.Protocol Q A G) (post : G → R → Prop)
    (Inv : List (ClientEvent Q A R T) → S → (ℕ → Option G) → Prop)
    (es : List (ClientEvent Q A R T)) (s : State Q A R S) (Γ : ℕ → Option G) : Prop where
  agree : ∀ i, Option.Rel (ClientObeys P post) (s.clients.lookup i) (Γ i)
  fresh : ∀ i, s.next ≤ i → Γ i = none ∧ ∀ t, .spawned i t ∉ es
  inv : Inv es s.store Γ

variable {P : Proc.Protocol Q A G} {post : G → R → Prop}
  {clients : Table ℕ (Client Q A R)} {Γ : ℕ → Option G}

theorem agree_insert {i : ℕ} {c : Client Q A R} {g : G} (obeys : ClientObeys P post c g)
    (others : ∀ j, j ≠ i → Option.Rel (ClientObeys P post) (clients.lookup j) (Γ j)) (j : ℕ) :
    Option.Rel (ClientObeys P post) ((clients.insert i c).lookup j)
      (Function.update Γ i (some g) j) := by
  by_cases h : j = i
  · subst h
    simpa using Option.Rel.some obeys
  · simpa [h] using others j h

theorem agree_erase {i : ℕ}
    (others : ∀ j, j ≠ i → Option.Rel (ClientObeys P post) (clients.lookup j) (Γ j)) (j : ℕ) :
    Option.Rel (ClientObeys P post) ((clients.erase i).lookup j) (Function.update Γ i none j) := by
  by_cases h : j = i
  · subst h
    simp
  · simpa [h] using others j h

theorem Ghosted.ghost {Inv : List (ClientEvent Q A R T) → S → (ℕ → Option G) → Prop}
    {es : List (ClientEvent Q A R T)} {s : State Q A R S} (h : Ghosted P post Inv es s Γ) {i : ℕ}
    {c : Client Q A R} (live : s.clients.lookup i = some c) :
    ∃ g, Γ i = some g ∧ ClientObeys P post c g := by
  have hrel := h.agree i
  rw [live] at hrel
  generalize Γ i = ghost at hrel
  cases hrel with
  | some obeys => exact ⟨_, rfl, obeys⟩

variable {sys : Clients Q A R T S E} {fresh : T → G}
  {Inv : List (ClientEvent Q A R T) → S → (ℕ → Option G) → Prop}
  {C : List (ClientEvent Q A R T) → State Q A R S → ClientInput T E → Prop}
  {es : List (ClientEvent Q A R T)} {s : State Q A R S}

theorem Preserved.under (pres : Preserved sys P post fresh Inv) :
    PreservedUnder sys P post fresh C Inv where
  obeys := pres.obeys
  spawn t _ inv hnone hunspawned := pres.spawn _ t inv hnone hunspawned
  perform i g q _ e _ _ inv ghost allowed := pres.perform i g q e inv ghost allowed
  finish i g q e _ _ inv ghost allowed := by
    have hperform := pres.drop i (pres.perform i g q e inv ghost allowed)
    rwa [Function.update_idem] at hperform
  returned := pres.returned
  cancel i _ inv := pres.drop i inv
  restart e _ inv := pres.restart e inv

theorem Ghosted.live_lt (h : Ghosted P post Inv es s Γ) {i : ℕ} {c : Client Q A R}
    (live : s.clients.lookup i = some c) : i < s.next := by
  obtain ⟨g, hghost, _⟩ := h.ghost live
  refine Nat.lt_of_not_le fun hle => ?_
  rw [(h.fresh i hle).1] at hghost
  cases hghost

theorem Ghosted.insert (h : Ghosted P post Inv es s Γ) {i : ℕ} {c : Client Q A R} {g : G}
    (live : i < s.next) (obeys : ClientObeys P post c g) {es' : List (ClientEvent Q A R T)}
    {store' : S}
    (unspawned : ∀ j t, .spawned j t ∈ es' → .spawned j t ∈ es)
    (inv : Inv es' store' (Function.update Γ i (some g))) :
    Ghosted P post Inv es' ⟨store', s.clients.insert i c, s.next⟩
      (Function.update Γ i (some g)) where
  agree := agree_insert obeys fun j _ => h.agree j
  fresh j hj := by
    rw [Function.update_of_ne (Nat.ne_of_gt (Nat.lt_of_lt_of_le live hj))]
    exact ⟨(h.fresh j hj).1, fun t ht => (h.fresh j hj).2 t (unspawned j t ht)⟩
  inv := inv

theorem Ghosted.erase (h : Ghosted P post Inv es s Γ) {i : ℕ} (live : i < s.next)
    {es' : List (ClientEvent Q A R T)} {store' : S}
    (unspawned : ∀ j t, .spawned j t ∈ es' → .spawned j t ∈ es)
    (inv : Inv es' store' (Function.update Γ i none)) :
    Ghosted P post Inv es' ⟨store', s.clients.erase i, s.next⟩ (Function.update Γ i none) where
  agree := agree_erase fun j _ => h.agree j
  fresh j hj := by
    rw [Function.update_of_ne (Nat.ne_of_gt (Nat.lt_of_lt_of_le live hj))]
    exact ⟨(h.fresh j hj).1, fun t ht => (h.fresh j hj).2 t (unspawned j t ht)⟩
  inv := inv

theorem meets_nil : Meets sys C es s [] := by
  intro before input after mid es' heq
  cases before <;> cases heq

theorem Meets.cons {input : ClientInput T E} {inputs : List (ClientInput T E)}
    (first : C es s input)
    (others : ∀ t o, sys.machine.step s input = some (t, o) → Meets sys C (es ++ o) t inputs) :
    Meets sys C es s (input :: inputs) := by
  intro before input' after mid es' heq run
  cases before with
  | nil =>
    cases heq
    cases run
    rwa [List.append_nil]
  | cons head before =>
    obtain ⟨rfl, rfl⟩ := List.cons.inj heq
    obtain ⟨t, o, os, hstep, hrest, rfl⟩ := (Machine.run_cons_iff _).mp run
    rw [← List.append_assoc]
    exact others t o hstep before input' after mid os rfl hrest

/-- Every input of the run passes a test on the history and the state before it. -/
def passes (sys : Clients Q A R T S E)
    (test : List (ClientEvent Q A R T) → State Q A R S → ClientInput T E → Bool) :
    List (ClientEvent Q A R T) → State Q A R S → List (ClientInput T E) → Bool
  | _, _, [] => true
  | es, s, input :: inputs =>
    test es s input && match sys.machine.step s input with
      | some (t, o) => passes sys test (es ++ o) t inputs
      | none => true

theorem meets_of_passes {test : List (ClientEvent Q A R T) → State Q A R S → ClientInput T E → Bool}
    (sound : ∀ es s input, test es s input = true → C es s input)
    {inputs : List (ClientInput T E)} (passed : passes sys test es s inputs = true) :
    Meets sys C es s inputs := by
  induction inputs generalizing es s with
  | nil => exact meets_nil
  | cons input inputs ih =>
    rw [passes, Bool.and_eq_true] at passed
    refine .cons (sound es s input passed.1) fun t o hstep => ih ?_
    have hothers := passed.2
    rw [hstep] at hothers
    exact hothers

/-- Running on to the next await keeps the invariant, with a return in the history if the
client ends. -/
theorem Ghosted.place (pres : PreservedUnder sys P post fresh C Inv) {i next : ℕ} {g : G} {p : Proc Q A R}
    {store : S} (inv : Inv es store Γ) (ghost : Γ i = some g) (obeys : p.Obeys P post g)
    (live : i < next)
    (agree : ∀ j, j ≠ i → Option.Rel (ClientObeys P post) (clients.lookup j) (Γ j))
    (unborn : ∀ j, next ≤ j → Γ j = none ∧ ∀ t, .spawned j t ∉ es) :
    ∃ Γ', Ghosted P post Inv (es ++ (Clients.place clients i p).2)
      ⟨store, (Clients.place (T := T) clients i p).1, next⟩ Γ' := by
  cases obeys with
  | @ret _ r allowed =>
    refine ⟨Function.update Γ i none, agree_erase agree, fun j hj => ?_,
      pres.returned i g r inv ghost allowed⟩
    rw [Function.update_of_ne (Nat.ne_of_gt (Nat.lt_of_lt_of_le live hj))]
    exact ⟨(unborn j hj).1, by simpa [Clients.place] using (unborn j hj).2⟩
  | @await _ q k allowed rest =>
    refine ⟨Γ, fun j => ?_, by simpa [Clients.place] using unborn,
      by simpa [Clients.place] using inv⟩
    have hrel := agree_insert (c := .pending q k) ⟨allowed, rest⟩ agree j
    rwa [← ghost, Function.update_eq_self] at hrel

theorem Ghosted.spawn (pres : PreservedUnder sys P post fresh C Inv)
    (h : Ghosted P post Inv es s Γ) (task : T) (met : C es s (.spawn task)) :
    ∃ Γ', Ghosted P post Inv
      (es ++ .spawned s.next task :: (Clients.place s.clients s.next (sys.start task)).2)
      ⟨s.store, (Clients.place (T := T) s.clients s.next (sys.start task)).1, s.next + 1⟩ Γ' := by
  obtain ⟨hnone, hunspawned⟩ := h.fresh s.next (Nat.le_refl _)
  obtain ⟨Γ', hplaced⟩ := Ghosted.place pres (pres.spawn task met h.inv hnone hunspawned)
    (Function.update_self ..) (pres.obeys task) (Nat.lt_succ_self s.next)
    (fun j hj => by rw [Function.update_of_ne hj]; exact h.agree j) (fun j hj => by
      have hne : j ≠ s.next := Nat.ne_of_gt hj
      rw [Function.update_of_ne hne]
      refine ⟨(h.fresh j (Nat.le_of_succ_le hj)).1, fun t ht => ?_⟩
      simp [hne, (h.fresh j (Nat.le_of_succ_le hj)).2] at ht)
  exact ⟨Γ', by simpa using hplaced⟩

theorem Ghosted.step (pres : PreservedUnder sys P post fresh C Inv)
    (h : Ghosted P post Inv es s Γ) {input : ClientInput T E} {t : State Q A R S}
    {o : List (ClientEvent Q A R T)} (step : sys.machine.step s input = some (t, o))
    (met : C es s input) : ∃ Γ', Ghosted P post Inv (es ++ o) t Γ' := by
  cases input with
  | spawn task =>
    cases step
    exact h.spawn pres task met
  | perform i e =>
    obtain ⟨q, rfl, ⟨k, hlookup, rfl⟩ | ⟨hlookup, rfl⟩⟩ := step_perform step
    · obtain ⟨g, hghost, hobeys⟩ := h.ghost hlookup
      exact ⟨_, h.insert (h.live_lt hlookup) (c := .answered (k (sys.perform q e s.store).1))
        (hobeys.2 _) (by simp) (pres.perform i g q k e met hlookup h.inv hghost hobeys.1)⟩
    · obtain ⟨g, hghost, hobeys⟩ := h.ghost hlookup
      exact ⟨_, h.erase (h.live_lt hlookup) (by simp)
        (pres.finish i g q e met hlookup h.inv hghost hobeys)⟩
  | deliver i =>
    obtain ⟨p, hlookup, rfl, rfl⟩ := step_deliver step
    obtain ⟨g, hghost, hobeys⟩ := h.ghost hlookup
    exact Ghosted.place pres h.inv hghost hobeys (h.live_lt hlookup) (fun j _ => h.agree j) h.fresh
  | cancel i =>
    obtain ⟨c, hlookup, _, rfl, rfl⟩ := step_cancel step
    exact ⟨_, h.erase (h.live_lt hlookup) (by simp) (by simpa using pres.cancel i met h.inv)⟩
  | detach i =>
    obtain ⟨q, k, hlookup, rfl, rfl⟩ := step_detach step
    obtain ⟨g, hghost, hobeys⟩ := h.ghost hlookup
    have hself : Function.update Γ i (some g) = Γ := by rw [← hghost, Function.update_eq_self]
    exact ⟨_, h.insert (h.live_lt hlookup) (c := .detached q) (g := g) hobeys.1 (by simp)
      (by simpa [hself] using h.inv)⟩
  | restart e =>
    cases step
    exact ⟨fun _ => none, fun _ => by simp, fun j hj => ⟨rfl, by simpa using (h.fresh j hj).2⟩,
      by simpa using pres.restart e met h.inv⟩

theorem Ghosted.run_under (pres : PreservedUnder sys P post fresh C Inv)
    (h : Ghosted P post Inv es s Γ) {inputs : List (ClientInput T E)} {t : State Q A R S}
    {es' : List (ClientEvent Q A R T)} (met : Meets sys C es s inputs)
    (run : sys.machine.run s inputs = some (t, es')) :
    ∃ Γ', Ghosted P post Inv (es ++ es') t Γ' := by
  refine Machine.run_invariant sys.machine (fun inputs es' t => Meets sys C es s inputs →
    ∃ Γ', Ghosted P post Inv (es ++ es') t Γ') (fun _ => ⟨Γ, by simpa using h⟩) ?_ run met
  intro is es' t input u o hrun ih hstep met
  obtain ⟨Γ', h'⟩ := ih fun before input' after mid es'' heq =>
    met before input' (after ++ [input]) mid es'' (by rw [heq, List.append_assoc, List.cons_append])
  obtain ⟨Γ'', h''⟩ := h'.step pres hstep (met is input [] t es' rfl hrun)
  exact ⟨Γ'', by simpa using h''⟩

theorem Ghosted.run (pres : Preserved sys P post fresh Inv) (h : Ghosted P post Inv es s Γ)
    {inputs : List (ClientInput T E)} {t : State Q A R S} {es' : List (ClientEvent Q A R T)}
    (run : sys.machine.run s inputs = some (t, es')) :
    ∃ Γ', Ghosted P post Inv (es ++ es') t Γ' :=
  h.run_under (pres.under (C := fun _ _ _ => True)) (fun _ _ _ _ _ _ _ => trivial) run

theorem Ghosted.initial {store : S} (initial : Inv [] store fun _ => none) :
    Ghosted P post Inv ([] : List (ClientEvent Q A R T)) (State.initial store : State Q A R S)
      fun _ => none :=
  ⟨fun _ => by simp [State.initial], fun _ _ => ⟨rfl, fun _ h => by cases h⟩, initial⟩

/-- The invariant rule for clients that keep to a protocol. -/
theorem invariant (pres : Preserved sys P post fresh Inv) {store : S}
    (initial : Inv [] store fun _ => none) {inputs : List (ClientInput T E)}
    (run : sys.machine.run (State.initial store) inputs = some (s, es)) :
    ∃ Γ, Ghosted P post Inv es s Γ :=
  (Ghosted.initial initial).run pres run

theorem invariant_under (pres : PreservedUnder sys P post fresh C Inv) {store : S}
    (initial : Inv [] store fun _ => none) {inputs : List (ClientInput T E)}
    (met : Meets sys C [] (State.initial store) inputs)
    (run : sys.machine.run (State.initial store) inputs = some (s, es)) :
    ∃ Γ, Ghosted P post Inv es s Γ :=
  (Ghosted.initial initial).run_under pres met run

/-- An invariant of the store alone asks nothing of the clients. -/
theorem store_invariant {I : S → Prop} (perform : ∀ q e s, I s → I (sys.perform q e s).2)
    (reboot : ∀ e s, I s → I (sys.reboot e s)) {store : S} (initial : I store)
    {inputs : List (ClientInput T E)}
    (run : sys.machine.run (State.initial store) inputs = some (s, es)) : I s.store := by
  have pres : Preserved sys Proc.anything (fun _ _ => True) (fun _ => ()) fun _ s _ => I s :=
    { obeys := fun t => Proc.obeys_anything _
      spawn := fun _ _ h _ _ => h
      perform := fun _ _ q e h _ _ => perform q e _ h
      returned := fun _ _ _ h _ _ => h
      drop := fun _ h => h
      restart := fun e h => reboot e _ h }
  obtain ⟨_, h⟩ := invariant pres initial run
  exact h.inv

/-- What every step does to the store, a whole run does. The condition `C` on the history is
one that the invariant may rest on. -/
theorem Preserved.reaches {C : List (ClientEvent Q A R T) → Prop}
    (shrinks : ∀ es e, C (es ++ [e]) → C es)
    (pres : Preserved sys P post fresh fun es s Γ => C es → Inv es s Γ) {r : S → S → Prop}
    (trans : ∀ a b c, r a b → r b c → r a c)
    (perform : ∀ es s Γ i g q e, Inv es s Γ → Γ i = some g → P.allows g q →
      r s (sys.perform q e s).2)
    (reboot : ∀ es s Γ e, Inv es s Γ → r s (sys.reboot e s)) (base : S) :
    Preserved sys P post fresh fun es s Γ => C es → Inv es s Γ ∧ r base s where
  obeys := pres.obeys
  spawn i t h hnone hunspawned hc :=
    ⟨pres.spawn i t (fun hc => (h hc).1) hnone hunspawned hc, (h (shrinks _ _ hc)).2⟩
  perform i g q e h hghost hallows hc := by
    obtain ⟨hinv, hbase⟩ := h (shrinks _ _ hc)
    exact ⟨pres.perform i g q e (fun hc => (h hc).1) hghost hallows hc,
      trans _ _ _ hbase (perform _ _ _ i g q e hinv hghost hallows)⟩
  returned i g r h hghost hreturns hc :=
    ⟨pres.returned i g r (fun hc => (h hc).1) hghost hreturns hc, (h (shrinks _ _ hc)).2⟩
  drop i h hc := ⟨pres.drop i (fun hc => (h hc).1) hc, (h hc).2⟩
  restart e h hc :=
    ⟨pres.restart e (fun hc => (h hc).1) hc, trans _ _ _ (h hc).2 (reboot _ _ _ e (h hc).1)⟩

end InvariantRule

end Clients

end RustExperiments.Lib
