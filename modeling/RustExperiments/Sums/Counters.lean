/- module: RustExperiments/Sums/Counters
   digest: The launches of the HTTP server, and the counters that its clients are shown. -/

import RustExperiments.Lib.History
import RustExperiments.Sums.Acceptance

set_option autoImplicit false
set_option relaxedAutoImplicit false

namespace RustExperiments.Sums

open RustExperiments.Lib

inductive Route where
  | sums (body : List UInt8)
  | journal (n : Option ℕ)
  | json
  | string

/-- A handler is given the `counter_runs` of the `AppState`. -/
def Route.task (counterRuns : ℕ) : Route → Task
  | .sums body => .sums body
  | .journal n => .journal n
  | .json => .json counterRuns
  | .string => .string

/-- The server; without a counter of launches `main` has not got as far as its routes. -/
structure Program where
  system : Clients.State Await Answer Outcome (Service SumsDb)
  counterRuns : Option ℕ

inductive ProgramEvent where
  | client (e : SumsEvent)
  | launched (counterRuns : ℕ)

section Program

variable (crates : Crates) (checks : Bool)

/-- The answer to the `IncCounterRequest` of `main`. -/
def launch (env : Env) (s : Service SumsDb) : Option ℕ :=
  (Service.serve (handleIncCounter crates checks .launch) env.faults ⟨s.db, true⟩).1.toOption

def programStep (c : Program) : ClientInput Route Env → Option (Program × List ProgramEvent)
  | .spawn route => do
    let counterRuns ← c.counterRuns
    advance (.spawn (route.task counterRuns))
  | .restart env => do
    let (system, _) ← (sums crates checks).machine.step c.system (.restart env)
    let counterRuns := launch crates checks env c.system.store
    some (⟨system, counterRuns⟩, counterRuns.toList.map .launched)
  | .perform i env => advance (.perform i env)
  | .deliver i => advance (.deliver i)
  | .cancel i => advance (.cancel i)
  | .detach i => advance (.detach i)
where
  advance (input : ClientInput Task Env) : Option (Program × List ProgramEvent) :=
    ((sums crates checks).machine.step c.system input).map fun p =>
      (⟨p.1, c.counterRuns⟩, p.2.map .client)

/-- The server over all its launches. -/
def program : Machine Program (ClientInput Route Env) ProgramEvent where
  step := programStep crates checks

def Program.stopped : Program :=
  ⟨.initial ⟨⟨none, none, none, none, none⟩, false⟩, none⟩

inductive ProgramStep (c : Program) :
    ClientInput Route Env → Program → List ProgramEvent → Prop where
  | advance {input : ClientInput Route Env} {input' : ClientInput Task Env}
      {system : Clients.State Await Answer Outcome (Service SumsDb)} {es : List SumsEvent}
      (step : (sums crates checks).machine.step c.system input' = some (system, es))
      (running : ∀ env, input' ≠ .restart env)
      (given : ∀ t, input' = .spawn t → ∃ counterRuns, c.counterRuns = some counterRuns ∧
        ∃ route : Route, t = route.task counterRuns) :
    ProgramStep c input ⟨system, c.counterRuns⟩ (es.map .client)
  | launch (env : Env) :
    ProgramStep c (.restart env)
      ⟨⟨reboot crates checks env c.system.store, ∅, c.system.next⟩,
        launch crates checks env c.system.store⟩
      ((launch crates checks env c.system.store).toList.map .launched)

variable {crates checks}

theorem program_step_cases {c d : Program} {input : ClientInput Route Env} {out : List ProgramEvent}
    (step : (program crates checks).step c input = some (d, out)) :
    ProgramStep crates checks c input d out := by
  have hadvance : ∀ input', (∀ env, input' ≠ .restart env) →
      (∀ t, input' = .spawn t → ∃ counterRuns, c.counterRuns = some counterRuns ∧
        ∃ route : Route, t = route.task counterRuns) →
      programStep.advance crates checks c input' = some (d, out) →
      ProgramStep crates checks c input d out := by
    intro input' running given hstep
    obtain ⟨⟨system, es⟩, hsystem, heq⟩ := Option.map_eq_some_iff.mp hstep
    cases heq
    exact .advance hsystem running given
  cases input with
  | spawn route =>
    obtain ⟨counterRuns, hruns, hstep⟩ := Option.bind_eq_some_iff.mp step
    refine hadvance _ (by simp) (fun t ht => ?_) hstep
    cases ht
    exact ⟨counterRuns, hruns, route, rfl⟩
  | restart env =>
    cases step
    exact .launch env
  | perform i env => exact hadvance _ (by simp) (by simp) step
  | deliver i => exact hadvance _ (by simp) (by simp) step
  | cancel i => exact hadvance _ (by simp) (by simp) step
  | detach i => exact hadvance _ (by simp) (by simp) step

end Program

section Tally

def SumsDb.counter (db : SumsDb) (counterType : CounterType) : ℕ :=
  ((db.counters.getD ∅).lookup counterType).getD 0

/-- What a request to `/json` was answered by the database. -/
def counted : SumsEvent → Option ℕ
  | .performed _ (.run (.incCounter counterType)) (.ok value) =>
    if counterType = .endpoint then some value else none
  | _ => none

/-- What a request to `/string` was answered by the database. -/
def dotted : SumsEvent → Option String
  | .performed _ (.run (.incString idx)) (.ok value) => if idx = 1 then some value else none
  | _ => none

def dots (n : ℕ) : String := String.ofList (List.replicate n '.')

theorem dots_succ (n : ℕ) : dots (n + 1) = s!"{dots n}." := by
  apply String.toList_inj.mp
  show (dots (n + 1)).toList = (dots n ++ ".").toList
  rw [String.toList_append]
  simp [dots, List.replicate_succ']

variable {crates : Crates} {checks : Bool} {db : SumsDb}

@[simp] theorem counter_setCounter (counterType other : CounterType) (value : ℕ) :
    (db.setCounter counterType value).counter other =
      if other = counterType then value else db.counter other := by
  by_cases h : other = counterType
  · simp [SumsDb.counter, SumsDb.setCounter, h]
  · simp [SumsDb.counter, SumsDb.setCounter, h]

@[simp] theorem string_setString (idx other : ℕ) (value : String) :
    (db.setString idx value).string other = if other = idx then value else db.string other := by
  by_cases h : other = idx
  · simp [SumsDb.string, SumsDb.setString, h]
  · simp [SumsDb.string, SumsDb.setString, h]

/-- A value is kept, or it goes on and is given out. -/
inductive Tallied {α : Type} (before after : α) (next : α → α → Prop) : Option α → Prop where
  | same (kept : after = before) : Tallied before after next none
  | one (counts : next before after) : Tallied before after next (some after)

theorem incCounter_exact {counterType : CounterType} {env : Env} {s s' : Service SumsDb} {value : ℕ}
    (h : s.serve (handleIncCounter crates checks counterType) env.faults = (.ok value, s')) :
    u64Add checks (s.db.counter counterType) 1 = some value := by
  rcases Service.serve_ends (handleIncCounter crates checks counterType) env.faults s with
    ⟨v, hanswer, hends⟩ | ⟨message, hanswer, _⟩
  · rw [h] at hanswer hends
    cases hanswer
    rcases incCounter_ends hends with ⟨_, halt, hr⟩ | ⟨v, hadd, hr, _⟩
    · cases hr
    · cases hr
      exact hadd
  · rw [h] at hanswer
    cases hanswer

theorem incString_exact {idx : ℕ} {env : Env} {s s' : Service SumsDb} {value : String}
    (h : s.serve (handleIncString crates idx) env.faults = (.ok value, s')) :
    value = s!"{s.db.string idx}." := by
  rcases Service.serve_ends (handleIncString crates idx) env.faults s with
    ⟨v, hanswer, hends⟩ | ⟨message, hanswer, _⟩
  · rw [h] at hanswer hends
    cases hanswer
    rcases incString_ends hends with ⟨_, halt, hr⟩ | ⟨v, hvalue, hr, _⟩
    · cases hr
    · cases hr
      exact hvalue
  · rw [h] at hanswer
    cases hanswer

/-- What a performed request does to the counters and to the string, and what it says of them. -/
theorem tallied_perform {q : Await} (asked : q ≠ .run (.incCounter .launch)) (i : ℕ) (env : Env)
    (s : Service SumsDb) :
    (perform crates checks q env s).2.db.counter .launch = s.db.counter .launch ∧
    Tallied (s.db.counter .endpoint) ((perform crates checks q env s).2.db.counter .endpoint)
      (fun n v => u64Add checks n 1 = some v)
      (counted (.performed i q (perform crates checks q env s).1)) ∧
    Tallied (s.db.string 1) ((perform crates checks q env s).2.db.string 1)
      (fun text v => v = s!"{text}.")
      (dotted (.performed i q (perform crates checks q env s).1)) := by
  have heffect := perform_effect crates checks q env s
  generalize hperform : perform crates checks q env s = answered at heffect ⊢
  obtain ⟨a, s'⟩ := answered
  simp only at heffect ⊢
  generalize hdb : s'.db = db' at heffect ⊢
  cases heffect with
  | failed q e =>
    cases q <;> exact ⟨rfl, .same rfl, .same rfl⟩
  | counted counterType value =>
    have hendpoint : counterType = .endpoint := by
      cases counterType with
      | true => exact absurd rfl asked
      | false => rfl
    subst hendpoint
    have hexact : u64Add checks (s.db.counter .endpoint) 1 = some value := incCounter_exact hperform
    have hstored : (s.db.setCounter .endpoint value).counter .endpoint = value := by simp
    refine ⟨by simp [CounterType.launch, CounterType.endpoint], ?_, .same rfl⟩
    rw [hstored]
    exact .one hexact
  | dotted idx value =>
    have hexact : value = s!"{s.db.string idx}." := incString_exact hperform
    refine ⟨rfl, .same rfl, ?_⟩
    by_cases hidx : idx = 1
    · subst hidx
      have hstored : (s.db.setString 1 value).string 1 = value := by simp
      rw [hstored]
      exact .one hexact
    · have hsilent : Sums.dotted (.performed i (.run (.incString idx)) (.ok value)) = none := by
        simp [Sums.dotted, hidx]
      rw [hsilent]
      exact .same (by simp [Ne.symm hidx])
  | duplicate id known => exact ⟨rfl, .same rfl, .same rfl⟩
  | unique id new => exact ⟨rfl, .same rfl, .same rfl⟩
  | journaled entry next room advanced => exact ⟨rfl, .same rfl, .same rfl⟩
  | read n entries => exact ⟨rfl, .same rfl, .same rfl⟩
  | now micros => exact ⟨rfl, .same rfl, .same rfl⟩

theorem start_asks (t : Task) :
    (t.start crates checks).Obeys (Proc.only fun q => q ≠ .run (.incCounter .launch))
      (fun _ _ => True) () := by
  cases t with
  | sums body =>
    simp only [Task.start, sumsHandler]
    split
    · rename_i req _
      split_ifs
      · exact .ret trivial
      · refine .await (by simp [Proc.only]) fun a => ?_
        rcases a with e | (_ | _)
        · exact .ret trivial
        · simp only [handleUnique]
          split
          · exact .ret trivial
          · split_ifs
            · refine .await (by simp [Proc.only]) fun micros => ?_
              cases micros with
              | none => exact .ret trivial
              | some micros => exact .await (by simp [Proc.only]) fun _ => .ret trivial
            · exact .ret trivial
        · exact .ret trivial
    · exact .ret trivial
  | journal n =>
    refine .await (by simp [Proc.only]) fun a => ?_
    cases a <;> exact .ret trivial
  | json counterRuns =>
    refine .await (by simp [Proc.only, CounterType.launch, CounterType.endpoint]) fun a => ?_
    cases a <;> exact .ret trivial
  | string =>
    refine .await (by simp [Proc.only]) fun a => ?_
    cases a <;> exact .ret trivial

end Tally

section Counting

def ProgramEvent.client? : ProgramEvent → Option SumsEvent
  | .client e => some e
  | .launched _ => none

def ProgramEvent.launched? : ProgramEvent → Option ℕ
  | .client _ => none
  | .launched counterRuns => some counterRuns

def events (out : List ProgramEvent) : List SumsEvent := out.filterMap ProgramEvent.client?

def launches (out : List ProgramEvent) : List ℕ := out.filterMap ProgramEvent.launched?

/-- What the requests to `/json` were answered, in the order in which they were performed. -/
def requests (out : List ProgramEvent) : List ℕ := (events out).filterMap counted

def strings (out : List ProgramEvent) : List String := (events out).filterMap dotted

variable {crates : Crates} {checks : Bool} {out : List ProgramEvent} {c d : Program}

theorem events_append (xs ys : List ProgramEvent) : events (xs ++ ys) = events xs ++ events ys :=
  List.filterMap_append

theorem launches_append (xs ys : List ProgramEvent) :
    launches (xs ++ ys) = launches xs ++ launches ys := List.filterMap_append

theorem requests_append (xs ys : List ProgramEvent) :
    requests (xs ++ ys) = requests xs ++ requests ys := by
  rw [requests, events_append, List.filterMap_append]
  rfl

theorem strings_append (xs ys : List ProgramEvent) :
    strings (xs ++ ys) = strings xs ++ strings ys := by
  rw [strings, events_append, List.filterMap_append]
  rfl

theorem events_clients (es : List SumsEvent) : events (es.map .client) = es := by
  rw [events, List.filterMap_map]
  exact List.filterMap_some

theorem launches_clients (es : List SumsEvent) : launches (es.map .client) = [] := by
  simp [launches, ProgramEvent.launched?]

theorem events_launched (counterRuns : Option ℕ) :
    events (counterRuns.toList.map .launched) = [] := by
  simp [events, ProgramEvent.client?]

theorem launches_launched (counterRuns : Option ℕ) :
    launches (counterRuns.toList.map .launched) = counterRuns.toList := by
  rw [launches, List.filterMap_map]
  exact List.filterMap_some

/-- The clients of the server are clients of the one system of `sums`, and its launches restarts. -/
theorem system_of_run {inputs : List (ClientInput Route Env)}
    (run : (program crates checks).run c inputs = some (d, out)) :
    ∃ inputs', (sums crates checks).machine.run c.system inputs' = some (d.system, events out) := by
  refine Machine.run_invariant _ (fun _ out d => ∃ inputs',
    (sums crates checks).machine.run c.system inputs' = some (d.system, events out))
    ⟨[], rfl⟩ ?_ run
  rintro _ out mid input d o _ ⟨inputs', hrun⟩ hstep
  cases program_step_cases hstep with
  | @advance _ input' _ es hsystem _ _ =>
    refine ⟨inputs' ++ [input'], ?_⟩
    rw [events_append, events_clients]
    exact Machine.run_append _ hrun ((Machine.run_singleton _).mpr hsystem)
  | launch env =>
    refine ⟨inputs' ++ [.restart env], ?_⟩
    rw [events_append, events_launched]
    exact Machine.run_append _ hrun ((Machine.run_singleton _).mpr rfl)

/-- What the counters, the string and the answers so far say about each other. -/
structure Counting (steps : ℕ) (out : List ProgramEvent) (c : Program) : Prop where
  launches : launches out = List.range' 1 (c.system.store.db.counter .launch)
  requests : requests out = List.range' 1 (c.system.store.db.counter .endpoint)
  strings : ∃ n, c.system.store.db.string 1 = dots n ∧ strings out = (List.range' 1 n).map dots
  counterRuns : ∀ runs, c.counterRuns = some runs → runs = c.system.store.db.counter .launch
  few : c.system.store.db.counter .launch + c.system.store.db.counter .endpoint ≤ steps

theorem tallied_launch (env : Env) (s : Service SumsDb) :
    Tallied (s.db.counter .launch) ((reboot crates checks env s).db.counter .launch)
      (fun n v => u64Add checks n 1 = some v) (launch crates checks env s) ∧
    (reboot crates checks env s).db.counter .endpoint = s.db.counter .endpoint ∧
    (reboot crates checks env s).db.string 1 = s.db.string 1 := by
  have hends := Service.serve_ends (handleIncCounter crates checks .launch) env.faults ⟨s.db, true⟩
  unfold reboot launch
  revert hends
  rcases Service.serve (handleIncCounter crates checks .launch) env.faults ⟨s.db, true⟩ with ⟨r, s'⟩
  rintro (⟨v, rfl, hends⟩ | ⟨message, rfl, hsame⟩)
  · rcases incCounter_ends hends with ⟨_, halt, hr⟩ | ⟨value, hadd, hr, hdb⟩
    · cases hr
    · cases hr
      have hstored : (s.db.setCounter .launch v).counter .launch = v := by simp
      simp only at hdb ⊢
      rw [hdb, hstored]
      exact ⟨.one hadd, by simp [CounterType.launch, CounterType.endpoint], rfl⟩
  · have hkept : s'.db = s.db := by
      rcases hsame with rfl | ⟨halt, hends⟩
      · rfl
      · rcases incCounter_ends hends with ⟨hdb, _⟩ | ⟨value, _, hr, _⟩
        · exact hdb
        · cases hr
    simp only at hkept ⊢
    rw [hkept]
    exact ⟨.same rfl, rfl, rfl⟩

theorem range_tallied {before after : ℕ} {counted : Option ℕ}
    (tallied : Tallied before after (fun n v => u64Add checks n 1 = some v) counted)
    (fits : before + 1 < u64Size) :
    List.range' 1 before ++ counted.toList = List.range' 1 after ∧ after ≤ before + 1 := by
  cases tallied with
  | same kept =>
    subst kept
    exact ⟨List.append_nil _, Nat.le_succ _⟩
  | one counts =>
    have hnext : after = before + 1 := u64Add_exact counts fun _ => fits
    subst hnext
    refine ⟨?_, Nat.le_refl _⟩
    rw [List.range'_concat, Nat.one_mul, Nat.add_comm 1 before]
    rfl

theorem dots_tallied {n : ℕ} {after : String} {dotted : Option String}
    (tallied : Tallied (dots n) after (fun text v => v = s!"{text}.") dotted) :
    ∃ m, after = dots m ∧
      (List.range' 1 n).map dots ++ dotted.toList = (List.range' 1 m).map dots := by
  cases tallied with
  | same kept => exact ⟨n, kept, List.append_nil _⟩
  | one counts =>
    have hnext : after = dots (n + 1) := counts.trans (dots_succ n).symm
    refine ⟨n + 1, hnext, ?_⟩
    rw [List.range'_concat, Nat.one_mul, Nat.add_comm 1 n, List.map_append, hnext]
    rfl

theorem tallied_step {inputs : List (ClientInput Task Env)} {input : ClientInput Task Env}
    {es es' : List SumsEvent} {store : Service SumsDb}
    {s t : Clients.State Await Answer Outcome (Service SumsDb)}
    (run : (sums crates checks).machine.run (.initial store) inputs = some (s, es))
    (step : (sums crates checks).machine.step s input = some (t, es'))
    (running : ∀ env, input ≠ .restart env) :
    t.store.db.counter .launch = s.store.db.counter .launch ∧
    (∃ value, es'.filterMap counted = value.toList ∧
      Tallied (s.store.db.counter .endpoint) (t.store.db.counter .endpoint)
        (fun n v => u64Add checks n 1 = some v) value) ∧
    ∃ text, es'.filterMap dotted = text.toList ∧
      Tallied (s.store.db.string 1) (t.store.db.string 1) (fun text v => v = s!"{text}.") text := by
  rcases Clients.store_of_step step running with ⟨hstore, hnothing⟩ | ⟨i, q, env, rfl, hstore⟩
  · have hnone : es'.filterMap counted = [] ∧ es'.filterMap dotted = [] := by
      simp only [List.filterMap_eq_nil_iff]
      refine ⟨fun e he => ?_, fun e he => ?_⟩ <;> cases e <;>
        first | rfl | exact absurd he (hnothing _ _ _)
    rw [hstore]
    exact ⟨rfl, ⟨none, hnone.1, .same rfl⟩, none, hnone.2, .same rfl⟩
  · have hall := Machine.run_append _ run ((Machine.run_singleton _).mpr step)
    have hperformed : .performed i q ((sums crates checks).perform q env s.store).1 ∈
        es ++ [.performed i q ((sums crates checks).perform q env s.store).1] := by
      simp
    obtain ⟨_, hasked⟩ := Clients.allowed_of_run start_asks hall hperformed
    obtain ⟨hlaunch, hcount, hdot⟩ :=
      tallied_perform hasked i env s.store
    rw [hstore]
    refine ⟨hlaunch, ⟨_, ?_, hcount⟩, _, ?_, hdot⟩
    · rw [List.filterMap_eq_flatMap_toList, List.flatMap_singleton]
      rfl
    · rw [List.filterMap_eq_flatMap_toList, List.flatMap_singleton]
      rfl

theorem counting_step {steps : ℕ} {inputs : List (ClientInput Route Env)}
    {input : ClientInput Route Env} {o : List ProgramEvent} (counting : Counting steps out c)
    (run : (program crates checks).run .stopped inputs = some (c, out))
    (step : (program crates checks).step c input = some (d, o)) (few : steps + 1 < u64Size) :
    Counting (steps + 1) (out ++ o) d := by
  obtain ⟨hlaunches, hrequests, ⟨n, hstring, hstrings⟩, hruns, hfew⟩ := counting
  cases program_step_cases step with
  | @advance _ input' system es hsystem running given =>
    obtain ⟨inputs', hsystems⟩ := system_of_run run
    obtain ⟨hlaunch, ⟨value, hvalue, hcount⟩, text, htext, hdot⟩ :=
      tallied_step hsystems hsystem running
    obtain ⟨hrange, hnext⟩ := range_tallied hcount (by omega)
    rw [hstring] at hdot
    obtain ⟨m, hm, hdots⟩ := dots_tallied hdot
    refine ⟨?_, ?_, ⟨m, hm, ?_⟩, fun runs h => ?_, ?_⟩
    · rw [launches_append, launches_clients, List.append_nil, hlaunches, hlaunch]
    · rw [requests_append, hrequests, requests, events_clients, hvalue, hrange]
    · rw [strings_append, hstrings, strings, events_clients, htext, hdots]
    · rw [hruns runs h, hlaunch]
    · simp only [hlaunch]
      omega
  | launch env =>
    have hrequests' : requests (out ++ (launch crates checks env c.system.store).toList.map
        .launched) = requests out := by
      rw [requests_append, requests, requests, events_launched]
      exact List.append_nil _
    have hstrings' : strings (out ++ (launch crates checks env c.system.store).toList.map
        .launched) = strings out := by
      rw [strings_append, strings, strings, events_launched]
      exact List.append_nil _
    obtain ⟨hcount, hendpoint, hstring'⟩ :=
      @tallied_launch crates checks env c.system.store
    obtain ⟨hrange, hnext⟩ := range_tallied hcount (by omega)
    refine ⟨?_, ?_, ⟨n, ?_, ?_⟩, fun runs h => ?_, ?_⟩
    · rw [launches_append, launches_launched, hlaunches, hrange]
    · rw [hrequests', hrequests, hendpoint]
    · rw [hstring', hstring]
    · rw [hstrings', hstrings]
    · generalize launch crates checks env c.system.store = counterRuns at h hcount
      cases hcount with
      | same _ => cases h
      | one _ => exact (Option.some.inj h).symm
    · simp only [hendpoint]
      omega

theorem counting_of_run {inputs : List (ClientInput Route Env)}
    (run : (program crates checks).run .stopped inputs = some (c, out))
    (few : inputs.length < u64Size) : Counting inputs.length out c := by
  have hstart : Counting 0 [] .stopped :=
    ⟨rfl, rfl, ⟨0, rfl, rfl⟩, (fun _ h => by cases h), Nat.le_refl _⟩
  refine Machine.run_invariant _ (fun is out c => is.length < u64Size → Counting is.length out c)
    (fun _ => hstart) ?_ run few
  intro is out c input d o hrun ih hstep hlength
  rw [List.length_append, List.length_singleton] at hlength ⊢
  exact counting_step (ih (by omega)) hrun hstep hlength

end Counting

section Shown

variable {crates : Crates} {checks : Bool} {inputs₁ inputs₂ : List (ClientInput Route Env)}
  {out out₁ out₂ : List ProgramEvent} {mid c : Program}

/-- A client of `/json` that has been shown these counters. -/
def Shown (out : List ProgramEvent) (i runs requests : ℕ) : Prop :=
  .spawned i (.json runs) ∈ events out ∧
    .returned i (.json (.counters runs requests)) ∈ events out

theorem jsonHandler_eq (runs : ℕ) : jsonHandler runs =
    .await (.run (.incCounter .endpoint)) fun a =>
      .ret (.json (.counters runs (a.toOption.getD 0))) := by
  rw [jsonHandler]
  congr
  funext a
  cases a <;> rfl

theorem stringHandler_eq : stringHandler =
    .await (.run (.incString 1)) fun a => .ret (.json (.stringCounter (a.toOption.getD ""))) := by
  rw [stringHandler]
  congr
  funext a
  cases a <;> rfl

theorem returned_json {inputs : List (ClientInput Route Env)}
    (run : (program crates checks).run .stopped inputs = some (c, out)) {i runs : ℕ} {r : Outcome}
    (spawned : .spawned i (.json runs) ∈ events out) (returned : .returned i r ∈ events out) :
    ∃ a : Except String ℕ, .performed i (.run (.incCounter .endpoint)) a ∈ events out ∧
      r = .json (.counters runs (a.toOption.getD 0)) := by
  obtain ⟨inputs', hrun⟩ := system_of_run run
  obtain ⟨g, htold⟩ := Clients.told_of_run (fun t => Proc.obeys_itself _) hrun spawned
  have hpath := htold.path
  rw [htold.returned r returned, show (sums crates checks).start (.json runs) = _ from
    jsonHandler_eq runs] at hpath
  obtain ⟨a, hanswers, hr⟩ := Proc.path_once hpath
  refine ⟨a, Clients.performed_of_mem ?_, hr⟩
  rw [hanswers]
  exact List.mem_singleton_self _

theorem returned_string {inputs : List (ClientInput Route Env)}
    (run : (program crates checks).run .stopped inputs = some (c, out)) {i : ℕ} {r : Outcome}
    (spawned : .spawned i .string ∈ events out) (returned : .returned i r ∈ events out) :
    ∃ a : Except String String, .performed i (.run (.incString 1)) a ∈ events out ∧
      r = .json (.stringCounter (a.toOption.getD "")) := by
  obtain ⟨inputs', hrun⟩ := system_of_run run
  obtain ⟨g, htold⟩ := Clients.told_of_run (fun t => Proc.obeys_itself _) hrun spawned
  have hpath := htold.path
  rw [htold.returned r returned, show (sums crates checks).start .string = _ from
    stringHandler_eq] at hpath
  obtain ⟨a, hanswers, hr⟩ := Proc.path_once hpath
  refine ⟨a, Clients.performed_of_mem ?_, hr⟩
  rw [hanswers]
  exact List.mem_singleton_self _

theorem Shown.performed {inputs : List (ClientInput Route Env)}
    (run : (program crates checks).run .stopped inputs = some (c, out)) {i runs requests : ℕ}
    (shown : Shown out i runs requests) (counted : requests ≠ 0) :
    .performed i (.run (.incCounter .endpoint)) (.ok requests) ∈ events out := by
  obtain ⟨a, hperformed, heq⟩ := returned_json run shown.1 shown.2
  cases a with
  | error message =>
    simp only [Outcome.json.injEq, JsonResponse.counters.injEq] at heq
    exact absurd heq.2 counted
  | ok value =>
    simp only [Outcome.json.injEq, JsonResponse.counters.injEq] at heq
    rw [heq.2]
    exact hperformed

theorem counted_performed (i value : ℕ) :
    counted (.performed i (.run (.incCounter .endpoint)) (.ok value)) = some value := rfl

theorem mem_requests {i value : ℕ}
    (performed : .performed i (.run (.incCounter .endpoint)) (.ok value) ∈ events out) :
    value ∈ requests out :=
  List.mem_filterMap.mpr ⟨_, performed, counted_performed i value⟩

theorem performed_unique {i j value : ℕ} (nodup : (requests out).Nodup)
    (hi : .performed i (.run (.incCounter .endpoint)) (.ok value) ∈ events out)
    (hj : .performed j (.run (.incCounter .endpoint)) (.ok value) ∈ events out) : i = j := by
  by_contra hne
  rw [requests, List.Nodup, List.pairwise_filterMap] at nodup
  have hsymm : Std.Symm fun e e' : SumsEvent =>
      ∀ b, counted e = some b → ∀ b', counted e' = some b' → b ≠ b' :=
    ⟨fun _ _ h b hb b' hb' => (h b' hb' b hb).symm⟩
  have hevents : (ClientEvent.performed i (.run (.incCounter .endpoint)) (.ok value) : SumsEvent) ≠
      .performed j (.run (.incCounter .endpoint)) (.ok value) := by
    intro heq
    cases heq
    exact hne rfl
  exact nodup.forall hi hj hevents value (counted_performed i value) value
    (counted_performed j value) rfl

theorem spawned_runs (run₁ : (program crates checks).run .stopped inputs₁ = some (mid, out₁))
    (run₂ : (program crates checks).run mid inputs₂ = some (c, out₂))
    (few : inputs₁.length + inputs₂.length < u64Size) :
    (launches out₁).length ≤ (launches (out₁ ++ out₂)).length ∧
    ∀ i runs, .spawned i (.json runs) ∈ events out₂ →
      (launches out₁).length ≤ runs ∧ runs ≤ (launches (out₁ ++ out₂)).length := by
  refine Machine.run_invariant _ (fun is out _ => inputs₁.length + is.length < u64Size →
    (launches out₁).length ≤ (launches (out₁ ++ out)).length ∧
    ∀ i runs, .spawned i (.json runs) ∈ events out →
      (launches out₁).length ≤ runs ∧ runs ≤ (launches (out₁ ++ out)).length)
    (fun _ => ⟨by simp, by simp [events]⟩) ?_ run₂ few
  intro is out c input d o hrun ih hstep hfew
  rw [List.length_append, List.length_singleton] at hfew
  obtain ⟨hle, hspawned⟩ := ih (by omega)
  have hall := Machine.run_append _ run₁ hrun
  have hcounting := counting_of_run hall (by rw [List.length_append]; omega)
  have hgrows : (launches (out₁ ++ out)).length ≤ (launches (out₁ ++ (out ++ o))).length := by
    rw [← List.append_assoc, launches_append _ o, List.length_append]
    exact Nat.le_add_right _ _
  refine ⟨hle.trans hgrows, fun i runs hmem => ?_⟩
  rw [events_append] at hmem
  rcases List.mem_append.mp hmem with hold | hnew
  · obtain ⟨hge, hle'⟩ := hspawned i runs hold
    exact ⟨hge, hle'.trans hgrows⟩
  · cases program_step_cases hstep with
    | advance hsystem _ given =>
      rw [events_clients] at hnew
      obtain ⟨hinput, _⟩ := (Clients.spawned_of_step hsystem).2 i _ hnew
      obtain ⟨runs', hruns, route, htask⟩ := given _ hinput
      have hnow := hcounting.counterRuns runs' hruns
      have hlength : (launches (out₁ ++ out)).length = runs' := by
        rw [hcounting.launches, List.length_range', hnow]
      cases route <;> cases htask
      omega
    | launch env =>
      rw [events_launched] at hnew
      cases hnew

/-- What is counted later is greater. -/
theorem later_count {first later : List ℕ} {n m count count' : ℕ}
    (all : first ++ later = List.range' 1 n) (before : first = List.range' 1 m)
    (early : count = 0 ∨ count ∈ first) (late : count' ∈ later) : count < count' := by
  have hnodup : (first ++ later).Nodup := by
    rw [all]
    exact List.nodup_range'
  have hpositive : 1 ≤ count' := by
    have hmem : count' ∈ first ++ later := List.mem_append_right _ late
    rw [all, List.mem_range'_1] at hmem
    exact hmem.1
  have hnew : count' ∉ first := fun hfirst =>
    (List.nodup_append.mp hnodup).2.2 count' hfirst count' late rfl
  rw [before, List.mem_range'_1] at hnew
  rcases early with rfl | hcount
  · exact hpositive
  · rw [before, List.mem_range'_1] at hcount
    omega

/-- Over any launches of the server, with any clients, failures and cancellations: launches and
requests to `/json` are counted one by one, a count that a client is shown is its own, and a client
that comes after another one has been answered is shown a greater count and no earlier launch. What
`/string` shows has one dot for each request so far. -/
theorem counters_shown (run₁ : (program crates checks).run .stopped inputs₁ = some (mid, out₁))
    (run₂ : (program crates checks).run mid inputs₂ = some (c, out₂))
    (few : inputs₁.length + inputs₂.length < u64Size) :
    (∃ n, launches (out₁ ++ out₂) = List.range' 1 n) ∧
    (∃ n, requests (out₁ ++ out₂) = List.range' 1 n) ∧
    (∃ n, strings (out₁ ++ out₂) = (List.range' 1 n).map dots) ∧
    (∀ i runs, .spawned i (.json runs) ∈ events out₂ →
      (launches out₁).length ≤ runs ∧ runs ≤ (launches (out₁ ++ out₂)).length ∧
      ∀ r, .returned i r ∈ events (out₁ ++ out₂) → ∃ count, r = .json (.counters runs count) ∧
        (count = 0 ∨ count ∈ requests (out₁ ++ out₂))) ∧
    (∀ i r, .spawned i .string ∈ events out₂ → .returned i r ∈ events (out₁ ++ out₂) →
      ∃ text, r = .json (.stringCounter text) ∧ (text = "" ∨ text ∈ strings (out₁ ++ out₂))) ∧
    (∀ i j runs runs' count, Shown (out₁ ++ out₂) i runs count →
      Shown (out₁ ++ out₂) j runs' count → count = 0 ∨ i = j) ∧
    ∀ i j runs runs' count count', Shown out₁ i runs count →
      .spawned j (.json runs') ∈ events out₂ → Shown (out₁ ++ out₂) j runs' count' →
      runs ≤ runs' ∧ (count' = 0 ∨ count < count') := by
  have hall := Machine.run_append _ run₁ run₂
  have hcounting := counting_of_run hall (by rw [List.length_append]; exact few)
  have hcounting₁ := counting_of_run run₁ (by omega)
  obtain ⟨hgrows, hruns⟩ := spawned_runs run₁ run₂ few
  have hspawned : ∀ {i t}, .spawned i t ∈ events out₂ → .spawned i t ∈ events (out₁ ++ out₂) := by
    intro i t hmem
    rw [events_append]
    exact List.mem_append_right _ hmem
  refine ⟨⟨_, hcounting.launches⟩, ⟨_, hcounting.requests⟩, ?_, ?_, ?_, ?_, ?_⟩
  · obtain ⟨n, _, hstrings⟩ := hcounting.strings
    exact ⟨n, hstrings⟩
  · intro i runs hmem
    obtain ⟨hge, hle⟩ := hruns i runs hmem
    refine ⟨hge, hle, fun r hreturned => ?_⟩
    obtain ⟨a, hperformed, rfl⟩ := returned_json hall (hspawned hmem) hreturned
    cases a with
    | error message => exact ⟨0, rfl, Or.inl rfl⟩
    | ok value => exact ⟨value, rfl, Or.inr (mem_requests hperformed)⟩
  · intro i r hmem hreturned
    obtain ⟨a, hperformed, rfl⟩ := returned_string hall (hspawned hmem) hreturned
    cases a with
    | error message => exact ⟨"", rfl, Or.inl rfl⟩
    | ok text => exact ⟨text, rfl, Or.inr (List.mem_filterMap.mpr ⟨_, hperformed, rfl⟩)⟩
  · intro i j runs runs' count hi hj
    by_cases hzero : count = 0
    · exact Or.inl hzero
    · refine Or.inr (performed_unique ?_ (hi.performed hall hzero) (hj.performed hall hzero))
      rw [hcounting.requests]
      exact List.nodup_range'
  · intro i j runs runs' count count' hi hmem hj
    obtain ⟨inputs, hsystem⟩ := system_of_run run₁
    obtain ⟨inputs', hsystem'⟩ := system_of_run run₂
    have hearlier : runs ≤ (launches out₁).length := by
      have hnothing : (program crates checks).run .stopped [] = some (.stopped, []) := rfl
      obtain ⟨_, hstart⟩ := spawned_runs hnothing run₁ (by rw [List.length_nil]; omega)
      exact (hstart i runs hi.1).2
    refine ⟨hearlier.trans (hruns j runs' hmem).1, ?_⟩
    by_cases hzero : count' = 0
    · exact Or.inl hzero
    have hsplit : requests out₁ ++ requests out₂ =
        List.range' 1 (c.system.store.db.counter .endpoint) := by
      rw [← requests_append]
      exact hcounting.requests
    refine Or.inr (later_count hsplit hcounting₁.requests ?_ ?_)
    · by_cases hnone : count = 0
      · exact Or.inl hnone
      · exact Or.inr (mem_requests (hi.performed run₁ hnone))
    · have hperformed := hj.performed hall hzero
      rw [events_append] at hperformed
      rcases List.mem_append.mp hperformed with hold | hnew
      · obtain ⟨task, hbefore⟩ := Clients.spawned_of_performed start_asks hsystem hold
        exact absurd hbefore (Clients.unspawned_before hsystem hsystem' hmem)
      · exact mem_requests hnew

/-- A client of `/json` is answered, and another one after the server was started again. -/
def firstLaunch : List (ClientInput Route Env) :=
  [.restart (.at 0), .spawn .json, .perform 0 (.at 1), .deliver 0]

def secondLaunch : List (ClientInput Route Env) :=
  [.spawn .string, .restart (.at 2), .spawn .json, .perform 2 (.at 3), .deliver 2]

/-- The launch and the count that a client was shown. -/
def shownTo (i : ℕ) : SumsEvent → Option (ℕ × ℕ)
  | .returned j (.json (.counters runs count)) => if j = i then some (runs, count) else none
  | _ => none

theorem mem_of_shownTo {es : List SumsEvent} {i runs count : ℕ}
    (shown : (runs, count) ∈ es.filterMap (shownTo i)) :
    .returned i (.json (.counters runs count)) ∈ es := by
  obtain ⟨e, he, hshown⟩ := List.mem_filterMap.mp shown
  unfold shownTo at hshown
  split at hshown
  · split_ifs at hshown with hi
    cases hshown
    rwa [← hi]
  · cases hshown

theorem second_launch_shown : ∃ mid c out₁ out₂,
    (program asciiJson true).run .stopped firstLaunch = some (mid, out₁) ∧
    (program asciiJson true).run mid secondLaunch = some (c, out₂) ∧
    launches (out₁ ++ out₂) = [1, 2] ∧ .returned 2 (.json (.counters 2 2)) ∈ events out₂ ∧
    ∃ n, requests (out₁ ++ out₂) = List.range' 1 n := by
  have hrun : ((program asciiJson true).run .stopped firstLaunch).bind (fun first =>
      ((program asciiJson true).run first.1 secondLaunch).map fun second =>
        (launches (first.2 ++ second.2), (events second.2).filterMap (shownTo 2))) =
      some ([1, 2], [(2, 2)]) := by
    decide +kernel
  obtain ⟨⟨mid, out₁⟩, run₁, hmap⟩ := Option.bind_eq_some_iff.mp hrun
  obtain ⟨⟨c, out₂⟩, run₂, hvalues⟩ := Option.map_eq_some_iff.mp hmap
  obtain ⟨hlaunches, hshown⟩ := Prod.mk.inj hvalues
  obtain ⟨_, hrequests, _⟩ := counters_shown run₁ run₂ (by decide)
  exact ⟨mid, c, out₁, out₂, run₁, run₂, hlaunches, mem_of_shownTo (by rw [hshown]; simp),
    hrequests⟩

end Shown

end RustExperiments.Sums
