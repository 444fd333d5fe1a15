/- module: RustExperiments/Lib/History
   digest: What each client of a run did by itself, as a path through its protocol. -/

import RustExperiments.Lib.Clients

set_option autoImplicit false
set_option relaxedAutoImplicit false

namespace RustExperiments.Lib

variable {Q : Type} {A : Q → Type} {R T S E G : Type}

namespace Proc.Protocol

/-- The ghost states that answered requests lead through, each request being allowed. -/
inductive Path (P : Protocol Q A G) : G → List (Σ q, A q) → G → Prop where
  | nil (g : G) : Path P g [] g
  | cons {g g' : G} {q : Q} {a : A q} {answers : List (Σ q, A q)} (allowed : P.allows g q)
      (rest : Path P (P.next g q a) answers g') : Path P g (⟨q, a⟩ :: answers) g'

variable {P : Protocol Q A G}

theorem Path.concat {g g' : G} {answers : List (Σ q, A q)} (path : P.Path g answers g') {q : Q}
    (allowed : P.allows g' q) (a : A q) : P.Path g (answers ++ [⟨q, a⟩]) (P.next g' q a) := by
  induction path with
  | nil g => exact .cons allowed (.nil _)
  | cons allowed' _ ih => exact .cons allowed' (ih allowed)

theorem Path.allowed {g g' : G} {answers : List (Σ q, A q)} (path : P.Path g answers g')
    {x : Σ q, A q} (mem : x ∈ answers) : ∃ g, P.allows g x.1 := by
  induction path with
  | nil => cases mem
  | @cons g _ q a _ allowed _ ih =>
    rcases List.mem_cons.mp mem with rfl | htail
    · exact ⟨g, allowed⟩
    · exact ih htail

theorem Path.of_final {g g' : G} {answers : List (Σ q, A q)} (path : P.Path g answers g')
    (final : ∀ q, ¬ P.allows g q) : answers = [] ∧ g' = g := by
  cases path with
  | nil => exact ⟨rfl, rfl⟩
  | cons allowed _ => exact absurd allowed (final _)

end Proc.Protocol

namespace Proc

def only (allowed : Q → Prop) : Protocol Q A Unit where
  allows _ := allowed
  next _ _ _ := ()

def itself [DecidableEq Q] : Protocol Q A (Proc Q A R) where
  allows p q := ∃ k, p = .await q k
  next p q a :=
    match p with
    | .ret r => .ret r
    | .await q' k => if same : q = q' then k (same ▸ a) else .await q' k

theorem obeys_itself [DecidableEq Q] (p : Proc Q A R) :
    p.Obeys itself (fun g r => g = .ret r) p := by
  induction p with
  | ret r => exact .ret rfl
  | await q k ih =>
    refine .await ⟨k, rfl⟩ fun a => ?_
    have hnext : (itself : Protocol Q A (Proc Q A R)).next (.await q k) q a = k a := by
      simp [itself]
    rw [hnext]
    exact ih a

theorem path_once [DecidableEq Q] {q : Q} {f : A q → R} {answers : List (Σ q, A q)} {r : R}
    (path : (itself : Protocol Q A (Proc Q A R)).Path (.await q fun a => .ret (f a)) answers
      (.ret r)) :
    ∃ a, answers = [⟨q, a⟩] ∧ r = f a := by
  cases path with
  | @cons _ _ q' a _ allowed rest =>
    obtain ⟨k, heq⟩ := allowed
    cases heq
    have hnext : (itself : Protocol Q A (Proc Q A R)).next (.await q fun a => .ret (f a)) q a =
        .ret (f a) := by
      simp [itself]
    rw [hnext] at rest
    obtain ⟨rfl, hr⟩ := rest.of_final fun q' hallowed => by
      obtain ⟨_, hk⟩ := hallowed
      cases hk
    cases hr
    exact ⟨a, rfl, rfl⟩

end Proc

namespace Clients

def answerTo (i : ℕ) : ClientEvent Q A R T → Option (Σ q, A q)
  | .performed j q a => if j = i then some ⟨q, a⟩ else none
  | _ => none

def client : ClientEvent Q A R T → ℕ
  | .spawned i _ => i
  | .performed i _ _ => i
  | .returned i _ => i

theorem answerTo_of_ne {i : ℕ} {e : ClientEvent Q A R T} (other : client e ≠ i) :
    answerTo i e = none := by
  cases e with
  | performed j q a => exact if_neg other
  | _ => rfl

/-- The answered requests of one client, in order. -/
def answersTo (i : ℕ) (es : List (ClientEvent Q A R T)) : List (Σ q, A q) :=
  es.filterMap (answerTo i)

theorem answersTo_concat (i : ℕ) (es : List (ClientEvent Q A R T)) (e : ClientEvent Q A R T) :
    answersTo i (es ++ [e]) = answersTo i es ++ (answerTo i e).toList := by
  rw [answersTo, List.filterMap_append]
  cases h : answerTo i e <;> simp [answersTo, h]

theorem mem_answersTo {i : ℕ} {es : List (ClientEvent Q A R T)} {q : Q} {a : A q}
    (h : .performed i q a ∈ es) : ⟨q, a⟩ ∈ answersTo i es :=
  List.mem_filterMap.mpr ⟨_, h, if_pos rfl⟩

theorem performed_of_mem {i : ℕ} {es : List (ClientEvent Q A R T)} {q : Q} {a : A q}
    (h : ⟨q, a⟩ ∈ answersTo i es) : .performed i q a ∈ es := by
  obtain ⟨e, he, hanswer⟩ := List.mem_filterMap.mp h
  cases e with
  | performed j q' a' =>
    rw [answerTo] at hanswer
    split_ifs at hanswer with hji
    subst hji
    cases hanswer
    exact he
  | _ => cases hanswer

def SpawnedOnce (es : List (ClientEvent Q A R T)) : Prop :=
  ∀ i t t', .spawned i t ∈ es → .spawned i t' ∈ es → t = t'

theorem SpawnedOnce.spawn {es : List (ClientEvent Q A R T)} (h : SpawnedOnce es) {i : ℕ}
    (unspawned : ∀ t, .spawned i t ∉ es) (t : T) : SpawnedOnce (es ++ [.spawned i t]) := by
  intro j u u' hu hu'
  simp only [List.mem_append, List.mem_singleton] at hu hu'
  rcases hu with hu | hu
  · rcases hu' with hu' | hu'
    · exact h j u u' hu hu'
    · cases hu'
      exact absurd hu (unspawned _)
  · cases hu
    rcases hu' with hu' | hu'
    · exact absurd hu' (unspawned _)
    · cases hu'
      rfl

theorem SpawnedOnce.other {es : List (ClientEvent Q A R T)} (h : SpawnedOnce es)
    {e : ClientEvent Q A R T} (other : ∀ i t, e ≠ .spawned i t) : SpawnedOnce (es ++ [e]) := by
  have hold : ∀ {i t}, .spawned i t ∈ es ++ [e] → .spawned i t ∈ es := by
    intro i t hmem
    rcases List.mem_append.mp hmem with hold | hnew
    · exact hold
    · exact absurd (List.mem_singleton.mp hnew).symm (other i t)
  exact fun i t t' ht ht' => h i t t' (hold ht) (hold ht')

variable {P : Proc.Protocol Q A G} {post : G → R → Prop} {fresh : T → G}

/-- A client went from its task through its protocol, and what it returned is allowed where it
ended. -/
structure Told (P : Proc.Protocol Q A G) (post : G → R → Prop) (fresh : T → G)
    (es : List (ClientEvent Q A R T)) (i : ℕ) (t : T) (g : G) : Prop where
  path : P.Path (fresh t) (answersTo i es) g
  returned : ∀ r, .returned i r ∈ es → post g r

/-- Every client is told by the history, and a live one stands where its own answers lead. -/
structure Histories (P : Proc.Protocol Q A G) (post : G → R → Prop) (fresh : T → G)
    (es : List (ClientEvent Q A R T)) (Γ : ℕ → Option G) : Prop where
  unspawned : ∀ i, (∀ t, .spawned i t ∉ es) →
    Γ i = none ∧ answersTo i es = [] ∧ ∀ r, .returned i r ∉ es
  spawned : ∀ i t, .spawned i t ∈ es → ∃ g, Told P post fresh es i t g ∧
    ∀ g', Γ i = some g' → g' = g ∧ ∀ r, .returned i r ∉ es

theorem Histories.live_spawned {es : List (ClientEvent Q A R T)} {Γ : ℕ → Option G}
    (h : Histories P post fresh es Γ) {i : ℕ} {g : G} (live : Γ i = some g) :
    ∃ t, .spawned i t ∈ es := by
  by_contra hno
  obtain ⟨hnone, _⟩ := h.unspawned i fun t ht => hno ⟨t, ht⟩
  rw [live] at hnone
  cases hnone

theorem Told.frame {es : List (ClientEvent Q A R T)} {i : ℕ} {t : T} {g : G}
    (h : Told P post fresh es i t g) {e : ClientEvent Q A R T} (other : client e ≠ i) :
    Told P post fresh (es ++ [e]) i t g where
  path := by
    rw [answersTo_concat, answerTo_of_ne other]
    exact (List.append_nil (answersTo i es)).symm ▸ h.path
  returned r hr := by
    rcases List.mem_append.mp hr with hold | hnew
    · exact h.returned r hold
    · exact absurd (congrArg client (List.mem_singleton.mp hnew).symm) other

theorem Histories.frame {es : List (ClientEvent Q A R T)} {Γ Γ' : ℕ → Option G}
    (h : Histories P post fresh es Γ) {e : ClientEvent Q A R T}
    (others : ∀ j, j ≠ client e → Γ' j = Γ j)
    (spawned : ∃ t, .spawned (client e) t ∈ es ++ [e])
    (self : ∀ t, .spawned (client e) t ∈ es ++ [e] →
      ∃ g, Told P post fresh (es ++ [e]) (client e) t g ∧
        ∀ g', Γ' (client e) = some g' → g' = g ∧ ∀ r, .returned (client e) r ∉ es ++ [e]) :
    Histories P post fresh (es ++ [e]) Γ' := by
  have hold : ∀ {j x}, j ≠ client e → client x = j → x ∈ es ++ [e] → x ∈ es := by
    intro j x hj hx hmem
    rcases List.mem_append.mp hmem with hold | hnew
    · exact hold
    · rw [List.mem_singleton.mp hnew] at hx
      exact absurd hx.symm hj
  constructor
  · intro j hno
    have hj : j ≠ client e := by
      rintro rfl
      obtain ⟨t, ht⟩ := spawned
      exact hno t ht
    obtain ⟨hnone, hnil, hunreturned⟩ := h.unspawned j fun t ht => hno t (List.mem_append_left _ ht)
    refine ⟨(others j hj).trans hnone, ?_, fun r hr => hunreturned r (hold hj rfl hr)⟩
    rw [answersTo_concat, answerTo_of_ne hj.symm, hnil]
    rfl
  · intro j t ht
    by_cases hj : j = client e
    · subst hj
      exact self t ht
    obtain ⟨g, htold, hlive⟩ := h.spawned j t (hold hj rfl ht)
    refine ⟨g, htold.frame (Ne.symm hj), fun g' hg' => ?_⟩
    obtain ⟨heq, hunreturned⟩ := hlive g' (others j hj ▸ hg')
    exact ⟨heq, fun r hr => hunreturned r (hold hj rfl hr)⟩

variable {sys : Clients Q A R T S E}

theorem histories_preserved (obeys : ∀ t, (sys.start t).Obeys P post (fresh t)) :
    sys.Preserved P post fresh fun es _ Γ => Histories P post fresh es Γ where
  obeys := obeys
  spawn {es s Γ} i t h _ hunspawned := by
    obtain ⟨_, hnil, hunreturned⟩ := h.unspawned i hunspawned
    refine h.frame (fun j hj => Function.update_of_ne hj _ _) ⟨t, by simp [client]⟩ fun t' ht' => ?_
    obtain rfl : t' = t := by simpa [hunspawned, client] using ht'
    refine ⟨fresh t', ⟨?_, by simp [hunreturned, client]⟩, by simp [hunreturned, client, eq_comm]⟩
    rw [answersTo_concat, client, hnil]
    exact .nil _
  perform {es s Γ} i g q e h live allowed := by
    obtain ⟨t, hspawned⟩ := h.live_spawned live
    refine h.frame (fun j hj => Function.update_of_ne hj _ _)
      ⟨t, List.mem_append_left _ hspawned⟩ fun t ht => ?_
    obtain ⟨g', htold, hlive⟩ := h.spawned i t (by simpa [client] using ht)
    obtain ⟨rfl, hunreturned⟩ := hlive g live
    refine ⟨P.next g q (sys.perform q e s).1, ⟨?_, by simp [hunreturned, client]⟩,
      by simp [hunreturned, client, eq_comm]⟩
    rw [answersTo_concat, client, answerTo, if_pos rfl]
    exact htold.path.concat allowed _
  returned {es s Γ} i g r h live allowed := by
    obtain ⟨t, hspawned⟩ := h.live_spawned live
    refine h.frame (fun j hj => Function.update_of_ne hj _ _)
      ⟨t, List.mem_append_left _ hspawned⟩ fun t ht => ?_
    obtain ⟨g', htold, hlive⟩ := h.spawned i t (by simpa [client] using ht)
    obtain ⟨rfl, hunreturned⟩ := hlive g live
    refine ⟨g, ⟨?_, fun r' hr' => ?_⟩, by simp [client]⟩
    · rw [answersTo_concat]
      exact (List.append_nil (answersTo i es)).symm ▸ htold.path
    · obtain rfl : r' = r := by simpa [hunreturned, client] using hr'
      exact allowed
  drop {es s Γ} i h := by
    refine ⟨fun j hno => ?_, fun j t ht => ?_⟩
    · obtain ⟨hnone, hrest⟩ := h.unspawned j hno
      refine ⟨?_, hrest⟩
      by_cases hji : j = i
      · subst hji
        simp
      · simpa [hji] using hnone
    · obtain ⟨g, htold, hlive⟩ := h.spawned j t ht
      exact ⟨g, htold, fun g' hg' => hlive g' (update_none_cases hg')⟩
  restart {es s Γ} e h := by
    refine ⟨fun j hno => ⟨rfl, (h.unspawned j hno).2⟩, fun j t ht => ?_⟩
    obtain ⟨g, htold, _⟩ := h.spawned j t ht
    exact ⟨g, htold, fun g' hg' => by cases hg'⟩

/-- In every run each client by itself followed its protocol. -/
theorem told_of_run (obeys : ∀ t, (sys.start t).Obeys P post (fresh t)) {store : S}
    {inputs : List (ClientInput T E)} {s : State Q A R S} {es : List (ClientEvent Q A R T)}
    (run : sys.machine.run (.initial store) inputs = some (s, es)) {i : ℕ} {t : T}
    (spawned : .spawned i t ∈ es) : ∃ g, Told P post fresh es i t g := by
  have hinitial : Histories P post fresh [] fun _ => none :=
    ⟨fun _ _ => ⟨rfl, rfl, by simp⟩, fun _ _ h => by cases h⟩
  obtain ⟨Γ, h⟩ := Clients.invariant (histories_preserved obeys) hinitial run
  obtain ⟨g, htold, _⟩ := h.inv.spawned i t spawned
  exact ⟨g, htold⟩

theorem spawned_of_performed (obeys : ∀ t, (sys.start t).Obeys P post (fresh t)) {store : S}
    {inputs : List (ClientInput T E)} {s : State Q A R S} {es : List (ClientEvent Q A R T)}
    (run : sys.machine.run (.initial store) inputs = some (s, es)) {i : ℕ} {q : Q} {a : A q}
    (performed : .performed i q a ∈ es) : ∃ t, .spawned i t ∈ es := by
  have hinitial : Histories P post fresh [] fun _ => none :=
    ⟨fun _ _ => ⟨rfl, rfl, by simp⟩, fun _ _ h => by cases h⟩
  obtain ⟨Γ, h⟩ := Clients.invariant (histories_preserved obeys) hinitial run
  by_contra hno
  obtain ⟨_, hnil, _⟩ := h.inv.unspawned i fun t ht => hno ⟨t, ht⟩
  have hmem := mem_answersTo performed
  rw [hnil] at hmem
  cases hmem

theorem allowed_of_run (obeys : ∀ t, (sys.start t).Obeys P post (fresh t)) {store : S}
    {inputs : List (ClientInput T E)} {s : State Q A R S} {es : List (ClientEvent Q A R T)}
    (run : sys.machine.run (.initial store) inputs = some (s, es)) {i : ℕ} {q : Q} {a : A q}
    (performed : .performed i q a ∈ es) : ∃ g, P.allows g q := by
  obtain ⟨t, hspawned⟩ := spawned_of_performed obeys run performed
  obtain ⟨g, htold⟩ := told_of_run obeys run hspawned
  exact htold.path.allowed (mem_answersTo performed)

theorem place_performs_nothing {clients : Table ℕ (Client Q A R)} {i j : ℕ} (p : Proc Q A R) {q : Q}
    {a : A q} : .performed i q a ∉ (place (T := T) clients j p).2 := by
  cases p with
  | ret r => simp [place]
  | await q' k => simp [place]

theorem spawned_of_step {s t : State Q A R S} {input : ClientInput T E}
    {o : List (ClientEvent Q A R T)} (step : sys.machine.step s input = some (t, o)) :
    s.next ≤ t.next ∧
      ∀ j task, .spawned j task ∈ o → input = .spawn task ∧ s.next ≤ j ∧ j < t.next := by
  have hplaced : ∀ {clients : Table ℕ (Client Q A R)} {i : ℕ} (p : Proc Q A R) {j : ℕ} {task : T},
      .spawned j task ∉ (place (T := T) clients i p).2 := by
    intro clients i p j task
    cases p <;> simp [place]
  cases input with
  | spawn task =>
    cases step
    refine ⟨Nat.le_succ _, fun j task' hmem => ?_⟩
    rcases List.mem_cons.mp hmem with hself | hlater
    · cases hself
      exact ⟨rfl, Nat.le_refl _, Nat.lt_succ_self _⟩
    · exact absurd hlater (hplaced _)
  | perform i e =>
    obtain ⟨q, rfl, ⟨k, _, rfl⟩ | ⟨_, rfl⟩⟩ := step_perform step <;> exact ⟨Nat.le_refl _, by simp⟩
  | deliver i =>
    obtain ⟨p, _, rfl, rfl⟩ := step_deliver step
    exact ⟨Nat.le_refl _, fun j task hmem => absurd hmem (hplaced _)⟩
  | cancel i =>
    obtain ⟨_, _, _, rfl, rfl⟩ := step_cancel step
    exact ⟨Nat.le_refl _, by simp⟩
  | detach i =>
    obtain ⟨_, _, _, rfl, rfl⟩ := step_detach step
    exact ⟨Nat.le_refl _, by simp⟩
  | restart e =>
    cases step
    exact ⟨Nat.le_refl _, by simp⟩

theorem spawned_of_run {s t : State Q A R S} {inputs : List (ClientInput T E)}
    {es : List (ClientEvent Q A R T)} (run : sys.machine.run s inputs = some (t, es)) :
    s.next ≤ t.next ∧ ∀ j task, .spawned j task ∈ es → s.next ≤ j ∧ j < t.next := by
  refine Machine.run_invariant sys.machine (fun _ es t => s.next ≤ t.next ∧
    ∀ j task, .spawned j task ∈ es → s.next ≤ j ∧ j < t.next) ⟨Nat.le_refl _, by simp⟩ ?_ run
  rintro is es u input v o _ ⟨hle, hold⟩ hstep
  obtain ⟨hle', hnew⟩ := spawned_of_step hstep
  refine ⟨hle.trans hle', fun j task hmem => ?_⟩
  rcases List.mem_append.mp hmem with hbefore | hnow
  · obtain ⟨hge, hlt⟩ := hold j task hbefore
    exact ⟨hge, hlt.trans_le hle'⟩
  · obtain ⟨_, hge, hlt⟩ := hnew j task hnow
    exact ⟨hle.trans hge, hlt⟩

theorem unspawned_before {store : S} {mid s : State Q A R S}
    {inputs₁ inputs₂ : List (ClientInput T E)} {es₁ es₂ : List (ClientEvent Q A R T)}
    (run₁ : sys.machine.run (.initial store) inputs₁ = some (mid, es₁))
    (run₂ : sys.machine.run mid inputs₂ = some (s, es₂)) {j : ℕ} {task task' : T}
    (spawned : .spawned j task ∈ es₂) : .spawned j task' ∉ es₁ := by
  intro hbefore
  have hlt := ((spawned_of_run run₁).2 j task' hbefore).2
  have hge := ((spawned_of_run run₂).2 j task spawned).1
  omega

theorem store_of_step {s t : State Q A R S} {input : ClientInput T E}
    {o : List (ClientEvent Q A R T)} (step : sys.machine.step s input = some (t, o))
    (running : ∀ e, input ≠ .restart e) :
    (t.store = s.store ∧ ∀ i q a, .performed i q a ∉ o) ∨
      ∃ i q e, o = [.performed i q (sys.perform q e s.store).1] ∧
        t.store = (sys.perform q e s.store).2 := by
  cases input with
  | spawn task =>
    cases step
    refine Or.inl ⟨rfl, fun i q a hmem => ?_⟩
    rcases List.mem_cons.mp hmem with hself | hlater
    · cases hself
    · exact place_performs_nothing _ hlater
  | perform i e =>
    obtain ⟨q, rfl, ⟨k, _, rfl⟩ | ⟨_, rfl⟩⟩ := step_perform step <;>
      exact Or.inr ⟨i, q, e, rfl, rfl⟩
  | deliver i =>
    obtain ⟨p, _, rfl, rfl⟩ := step_deliver step
    exact Or.inl ⟨rfl, fun _ _ _ => place_performs_nothing _⟩
  | cancel i =>
    obtain ⟨_, _, _, rfl, rfl⟩ := step_cancel step
    exact Or.inl ⟨rfl, by simp⟩
  | detach i =>
    obtain ⟨_, _, _, rfl, rfl⟩ := step_detach step
    exact Or.inl ⟨rfl, by simp⟩
  | restart e => exact absurd rfl (running e)

theorem perform_of_step {s t : State Q A R S} {input : ClientInput T E}
    {o : List (ClientEvent Q A R T)} (step : sys.machine.step s input = some (t, o)) {i : ℕ} {q : Q}
    {a : A q} (performed : .performed i q a ∈ o) : ∃ e, sys.perform q e s.store = (a, t.store) := by
  cases input with
  | perform j e =>
    obtain ⟨q', rfl, ⟨k, _, rfl⟩ | ⟨_, rfl⟩⟩ := step_perform step
    · cases List.mem_singleton.mp performed
      exact ⟨e, rfl⟩
    · cases List.mem_singleton.mp performed
      exact ⟨e, rfl⟩
  | spawn task =>
    cases step
    rcases List.mem_cons.mp performed with hspawned | hplaced
    · cases hspawned
    · exact absurd hplaced (place_performs_nothing _)
  | deliver j =>
    obtain ⟨p, _, _, rfl⟩ := step_deliver step
    exact absurd performed (place_performs_nothing _)
  | cancel j =>
    obtain ⟨_, _, _, _, rfl⟩ := step_cancel step
    cases performed
  | detach j =>
    obtain ⟨_, _, _, _, rfl⟩ := step_detach step
    cases performed
  | restart e =>
    cases step
    cases performed

theorem performed_at {s t : State Q A R S} {inputs : List (ClientInput T E)}
    {es : List (ClientEvent Q A R T)} (run : sys.machine.run s inputs = some (t, es)) {i : ℕ} {q : Q}
    {a : A q} (performed : .performed i q a ∈ es) : ∃ inputs' u before e,
    sys.machine.run s inputs' = some (u, before) ∧ before <+: es ∧
      (sys.perform q e u.store).1 = a := by
  refine Machine.run_invariant sys.machine (fun _ es _ => .performed i q a ∈ es →
    ∃ inputs' u before e, sys.machine.run s inputs' = some (u, before) ∧ before <+: es ∧
      (sys.perform q e u.store).1 = a) (fun h => by cases h) ?_ run performed
  intro is es u input v o hrun ih hstep hmem
  rcases List.mem_append.mp hmem with hold | hnew
  · obtain ⟨inputs', w, before, e, hbefore, hprefix, ha⟩ := ih hold
    exact ⟨inputs', w, before, e, hbefore, hprefix.trans (List.prefix_append es o), ha⟩
  · obtain ⟨e, he⟩ := perform_of_step hstep hnew
    exact ⟨is, u, es, e, hrun, List.prefix_append es o, by rw [he]⟩

/-- For a client of the second part of a run nothing was performed in the first, and its requests
were answered by the store as it stood behind the first part and some of the second. -/
theorem answered_within {store : S} {mid s : State Q A R S} {inputs₁ inputs₂ : List (ClientInput T E)}
    {es₁ es₂ : List (ClientEvent Q A R T)}
    (run₁ : sys.machine.run (.initial store) inputs₁ = some (mid, es₁))
    (run₂ : sys.machine.run mid inputs₂ = some (s, es₂)) {i : ℕ} {task : T} {q : Q} {a : A q}
    (spawned : .spawned i task ∈ es₂) (performed : .performed i q a ∈ es₁ ++ es₂) :
    ∃ inputs u before e, sys.machine.run (.initial store) inputs = some (u, es₁ ++ before) ∧
      before <+: es₂ ∧ (sys.perform q e u.store).1 = a := by
  have hlate : .performed i q a ∈ es₂ := by
    rcases List.mem_append.mp performed with hearly | hlate
    · obtain ⟨task', hbefore⟩ :=
        spawned_of_performed (fun t => Proc.obeys_anything (sys.start t)) run₁ hearly
      exact absurd hbefore (unspawned_before run₁ run₂ spawned)
    · exact hlate
  obtain ⟨inputs, u, before, e, hrun, hprefix, ha⟩ := performed_at run₂ hlate
  exact ⟨_, u, before, e, Machine.run_append _ run₁ hrun, hprefix, ha⟩

end Clients

end RustExperiments.Lib
