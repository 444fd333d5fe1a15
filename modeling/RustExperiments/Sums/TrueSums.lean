/- module: RustExperiments/Sums/TrueSums
   digest: Which accepted requests panic or journal a sum that is none. -/

import RustExperiments.Sums.Acknowledged

set_option autoImplicit false
set_option relaxedAutoImplicit false

namespace RustExperiments.Sums

open RustExperiments.Lib

section Sums

/-- The sum over the integers is a 32-bit number. -/
def SumFits (a b : Int32) : Prop :=
  -2 ^ 31 ≤ a.toInt + b.toInt ∧ a.toInt + b.toInt < 2 ^ 31

theorem sumFits_iff (a b : Int32) : SumFits a b ↔ (a + b).toInt = a.toInt + b.toInt := by
  constructor
  · rintro ⟨hle, hlt⟩
    rw [Int32.toInt_add, Int.bmod_eq_of_le (by omega) (by omega)]
  · intro h
    have hle := Int32.le_toInt (a + b)
    have hlt := Int32.toInt_lt (a + b)
    rw [h] at hle hlt
    exact ⟨hle, hlt⟩

/-- `c` is the sum over the integers. -/
def JournalEntry.IsSum (entry : JournalEntry) : Prop :=
  entry.c.toInt = entry.a.toInt + entry.b.toInt

/-- With overflow checks the sum fits; without them it fits, or `c` is not the wrapped one. -/
def TrueSum (checks : Bool) (req : SumRequest) : Prop :=
  SumFits req.a req.b ∨ checks = false ∧ req.c ≠ req.a + req.b

variable {checks : Bool} {req : SumRequest}

theorem i32Add_of_fits (fits : SumFits req.a req.b) :
    i32Add checks req.a req.b = some (req.a + req.b) := by
  rw [i32Add, (sumFits_iff req.a req.b).mp fits, bne_self_eq_false, Bool.and_false]
  exact if_neg Bool.false_ne_true

theorem i32Add_unchecked (a b : Int32) : i32Add false a b = some (a + b) := rfl

theorem TrueSum.isSum (h : TrueSum checks req) (correct : Correct checks req) (micros : ℕ) :
    (req.entry micros).IsSum := by
  rcases h with hfits | ⟨rfl, hne⟩
  · rw [Correct, i32Add_of_fits hfits] at correct
    change req.c.toInt = req.a.toInt + req.b.toInt
    rw [← Option.some.inj correct]
    exact (sumFits_iff req.a req.b).mp hfits
  · exact absurd (Option.some.inj correct).symm hne

theorem TrueSum.adds (h : TrueSum checks req) : ∃ sum, i32Add checks req.a req.b = some sum := by
  rcases h with hfits | ⟨rfl, _⟩
  · exact ⟨_, i32Add_of_fits hfits⟩
  · exact ⟨_, i32Add_unchecked req.a req.b⟩

theorem overflow_panics (unfit : ¬ SumFits req.a req.b) : i32Add true req.a req.b = none := by
  have hne := (sumFits_iff req.a req.b).not.mp unfit
  rw [i32Add, Bool.true_and, if_pos (bne_iff_ne.mpr hne)]

end Sums

section Request

variable (crates : Crates) (checks : Bool)

def handleCorrect (req : SumRequest) : Option ℕ → Proc Await Answer Outcome
  | none => .ret .panicked
  | some micros =>
    .await (.run (.addToJournal (req.entry micros))) fun _ => .ret (.response 200 "OK\n")

theorem handleUnique_correct {checks : Bool} {req : SumRequest} (h : Correct checks req) :
    handleUnique checks req = .await .now (handleCorrect req) := by
  rw [handleUnique, h]
  exact if_pos rfl

theorem handleUnique_incorrect {checks : Bool} {req : SumRequest} {sum : Int32}
    (adds : i32Add checks req.a req.b = some sum) (hne : req.c ≠ sum) :
    handleUnique checks req = .ret (.response 400 "Error: c must equal a + b.\n") := by
  rw [handleUnique, adds]
  exact if_neg hne

/-- From the acceptance of a request on, with any store and anything failing, as far as the clock
can be read: the handler does not panic, and it journals only a sum. -/
def HandledTruly (req : SumRequest) : Prop :=
  ∀ s inputs p s' answers, (∀ env ∈ inputs, env.now.isSome = true) →
    (Proc.machine (perform crates checks)).run (handleUnique checks req, s) inputs =
      some ((p, s'), answers) →
    p ≠ .ret .panicked ∧ ∀ entry a,
      (⟨.run (.addToJournal entry), a⟩ : Σ q, Answer q) ∈ answers → entry.IsSum

variable {crates checks}

theorem handledTruly_of_trueSum {req : SumRequest} (h : TrueSum checks req) :
    HandledTruly crates checks req := by
  intro s inputs p s' answers clock run
  obtain ⟨sum, hsum⟩ := h.adds
  by_cases hc : req.c = sum
  · have hcorrect : Correct checks req := by rw [Correct, hsum, hc]
    rw [handleUnique_correct hcorrect] at run
    rcases Proc.machine_await run with ⟨rfl, _, rfl⟩ | ⟨env, inputs', answers', rfl, rfl, rest⟩
    · exact ⟨(fun heq => by cases heq), fun _ _ hmem => by cases hmem⟩
    have hclock : (perform crates checks .now env s).1.isSome = true :=
      clock env List.mem_cons_self
    obtain ⟨micros, hmicros⟩ := Option.isSome_iff_exists.mp hclock
    rw [hmicros] at rest ⊢
    rcases Proc.machine_await rest with ⟨rfl, _, rfl⟩ | ⟨env', _, answers'', _, rfl, last⟩
    · refine ⟨(fun heq => by cases heq), fun _ _ hmem => ?_⟩
      cases List.mem_singleton.mp hmem
    · obtain ⟨rfl, _, rfl⟩ := Proc.machine_ret last
      refine ⟨(fun heq => by cases heq), fun entry a hmem => ?_⟩
      rcases List.mem_cons.mp hmem with heq | hmem
      · cases heq
      · cases List.mem_singleton.mp hmem
        exact h.isSum hcorrect micros
  · rw [handleUnique_incorrect hsum hc] at run
    obtain ⟨rfl, _, rfl⟩ := Proc.machine_ret run
    exact ⟨(fun heq => by cases heq), fun _ _ hmem => by cases hmem⟩

/-- With overflow checks the sum that does not fit panics; without them the wrapped one is
journaled. -/
theorem trueSum_of_handledTruly {req : SumRequest} (h : HandledTruly crates checks req) :
    TrueSum checks req := by
  by_contra huntrue
  obtain ⟨hunfit, hwrapped⟩ := not_or.mp huntrue
  cases checks with
  | true =>
    have hpanics : handleUnique true req = .ret .panicked := by
      rw [handleUnique, overflow_panics hunfit]
    exact (h (first crates true) [] _ _ _ (fun _ hmem => by cases hmem) rfl).1 hpanics
  | false =>
    have hc : req.c = req.a + req.b := by
      by_contra hne
      exact hwrapped ⟨rfl, hne⟩
    have hcorrect : Correct false req := by rw [Correct, i32Add_unchecked, hc]
    have hrun : ∃ p s' a, (Proc.machine (perform crates false)).run
        (handleUnique false req, first crates false) [.at 0, .at 0] =
          some ((p, s'), [⟨.now, some 0⟩, ⟨.run (.addToJournal (req.entry 0)), a⟩]) := by
      rw [handleUnique_correct hcorrect]
      exact ⟨_, _, _, (Machine.run_cons_iff _).mpr ⟨_, _, _, rfl, (Machine.run_cons_iff _).mpr
        ⟨_, _, _, rfl, rfl, rfl⟩, rfl⟩⟩
    obtain ⟨p, s', a, hrun⟩ := hrun
    have hsum := (h _ _ p s' _ (fun env hmem => ?_) hrun).2 (req.entry 0) a
      (List.mem_cons_of_mem _ List.mem_cons_self)
    · change req.c.toInt = _ at hsum
      rw [hc] at hsum
      exact hunfit ((sumFits_iff req.a req.b).mpr hsum)
    · rcases List.mem_cons.mp hmem with rfl | hmem
      · rfl
      · rw [List.mem_singleton.mp hmem]
        rfl

end Request

section Runs

variable (crates : Crates) (checks : Bool)

/-- A request that is accepted while its client waits is true, and the clock can be read. -/
def AcceptsTrueSums (es : List SumsEvent)
    (s : Clients.State Await Answer Outcome (Service SumsDb)) : ClientInput Task Env → Prop
  | .perform i env =>
    match s.clients.lookup i with
    | some (.pending (.run (.checkAndStoreId id)) _) =>
      StoresId crates env s.store id → ∀ req, Posted crates es i req → TrueSum checks req
    | some (.pending .now _) => env.now.isSome = true
    | _ => True
  | _ => True

/-- What the history, the journal and the handlers say about each other where only true requests
were accepted. -/
structure Truthful (es : List SumsEvent) (db : SumsDb) (Γ : ℕ → Option Submission) : Prop where
  accepting : Accepting crates es db Γ
  histories : Clients.Histories (sumsProtocol checks) Submission.Returns (.start crates) es Γ
  accepted : ∀ i g req, Γ i = some g → g.unjournaled = some req → ∀ micros, (req.entry micros).IsSum
  unpanicked : ∀ i, Γ i ≠ some (.ended .panicked)
  journal : ∀ k entry, db.journal k = some (crates.entryToVec entry) → entry.IsSum
  returned : ∀ i body, .spawned i (.sums body) ∈ es → .returned i .panicked ∉ es

variable {crates checks}

theorem sums_histories (crates : Crates) (checks : Bool) :
    (sums crates checks).Preserved (sumsProtocol checks) Submission.Returns (.start crates)
      fun es _ Γ => Clients.Histories (sumsProtocol checks) Submission.Returns (.start crates) es Γ :=
  Clients.histories_preserved (task_obeys crates checks)

theorem next_not_reader {g : Submission} {q : Await} (a : Answer q) (h : g ≠ .reader)
    (allowed : g.allows q) : g.next checks q a ≠ .reader := by
  cases g with
  | checking req =>
    obtain rfl := allowed
    rcases a with e | response
    · exact fun heq => by cases heq
    cases response with
    | duplicate => exact fun heq => by cases heq
    | unique =>
      intro heq
      change Submission.afterUnique checks req = .reader at heq
      rcases Submission.afterUnique_cases checks req with hafter | ⟨o, hafter⟩
      · rw [hafter] at heq
        cases heq
      · rw [hafter] at heq
        cases heq
  | accepted req =>
    obtain rfl := allowed
    cases a <;> exact fun heq => by cases heq
  | journaling req micros => exact fun heq => by cases heq
  | ended o => exact allowed.elim
  | reader => exact absurd rfl h

theorem path_not_reader {g g' : Submission} {answers : List (Σ q, Answer q)}
    (path : (sumsProtocol checks).Path g answers g') (h : g ≠ .reader) : g' ≠ .reader := by
  induction path with
  | nil g => exact h
  | cons allowed _ ih => exact ih (next_not_reader _ h allowed)

theorem start_not_reader (body : List UInt8) :
    Submission.start crates (.sums body) ≠ .reader := by
  simp only [Submission.start]
  split
  · split_ifs
    · exact fun heq => by cases heq
    · exact fun heq => by cases heq
  · exact fun heq => by cases heq

theorem start_not_panicked (task : Task) : Submission.start crates task ≠ .ended .panicked := by
  cases task with
  | sums body =>
    simp only [Submission.start]
    split
    · split_ifs
      · exact fun heq => by cases heq
      · exact fun heq => by cases heq
    · exact fun heq => by cases heq
  | _ => exact fun heq => by cases heq

theorem afterUnique_not_panicked {req : SumRequest} (h : TrueSum checks req) :
    Submission.afterUnique checks req ≠ .ended .panicked := by
  obtain ⟨sum, hsum⟩ := h.adds
  rw [Submission.afterUnique, hsum]
  dsimp only
  split_ifs
  · exact fun heq => by cases heq
  · exact fun heq => by cases heq

theorem next_not_panicked {g : Submission} {q : Await} {a : Answer q} (allowed : g.allows q)
    (fits : ∀ req, g = .checking req →
      (⟨q, a⟩ : Σ q, Answer q) = ⟨.run (.checkAndStoreId req.id), .ok .unique⟩ →
      TrueSum checks req)
    (dated : (⟨q, a⟩ : Σ q, Answer q) ≠ ⟨.now, none⟩) : g.next checks q a ≠ .ended .panicked := by
  cases g with
  | checking req =>
    obtain rfl := allowed
    rcases a with e | response
    · exact fun heq => by cases heq
    cases response with
    | duplicate => exact fun heq => by cases heq
    | unique => exact afterUnique_not_panicked (fits req rfl rfl)
  | accepted req =>
    obtain rfl := allowed
    cases a with
    | none => exact absurd rfl dated
    | some micros => exact fun heq => by cases heq
  | journaling req micros => exact fun heq => by cases heq
  | ended o => exact allowed.elim
  | reader => exact fun heq => by cases heq

namespace Truthful

variable {es : List SumsEvent} {db db' : SumsDb} {Γ : ℕ → Option Submission} {i : ℕ}
  {g : Submission}

theorem initial {db : SumsDb} (unprocessed : ∀ id, db.processed id = false)
    (unwritten : ∀ k, db.journal k = none) : Truthful crates checks [] db fun _ => none where
  accepting := .initial unprocessed unwritten
  histories := ⟨fun _ _ => ⟨rfl, rfl, fun _ h => by cases h⟩, fun _ _ h => by cases h⟩
  accepted _ _ _ h := by cases h
  unpanicked _ h := by cases h
  journal k entry hk := by
    rw [unwritten k] at hk
    cases hk
  returned _ _ h := by cases h

theorem journal_perform (h : Truthful crates checks es db Γ) {q : Await} {a : Answer q}
    (live : Γ i = some g) (allowed : g.allows q) (effect : Effect crates checks db q a db') {k : ℕ}
    {entry : JournalEntry} (hk : db'.journal k = some (crates.entryToVec entry)) :
    entry.IsSum := by
  cases effect with
  | journaled entry' next room advanced =>
    obtain ⟨req, micros, rfl, rfl⟩ := allows_append allowed
    rw [SumsDb.journal_append] at hk
    split_ifs at hk
    · rw [← entryToVec_injective (Option.some.inj hk)]
      exact h.accepted i _ req live rfl micros
    · exact h.journal k entry hk
  | _ => exact h.journal k entry hk

theorem returned_concat (h : Truthful crates checks es db Γ) {e : SumsEvent}
    (unreturned : ∀ j o, e ≠ .returned j o)
    (unspawned : ∀ j t, e = .spawned j t → ∀ t', .spawned j t' ∉ es) (j : ℕ) (body : List UInt8)
    (spawned : .spawned j (.sums body) ∈ es ++ [e]) : .returned j .panicked ∉ es ++ [e] := by
  intro hreturned
  have hold : .returned j .panicked ∈ es := by
    rcases List.mem_append.mp hreturned with hold | hnew
    · exact hold
    · exact absurd (List.mem_singleton.mp hnew).symm (unreturned j _)
  rcases List.mem_append.mp spawned with hspawned | hnew
  · exact h.returned j body hspawned hold
  · have hnone := unspawned j _ (List.mem_singleton.mp hnew).symm
    exact (h.histories.unspawned j hnone).2.2 _ hold

theorem perform (h : Truthful crates checks es db Γ) {q : Await} {a : Answer q}
    (live : Γ i = some g) (allowed : g.allows q) (effect : Effect crates checks db q a db')
    (histories : Clients.Histories (sumsProtocol checks) Submission.Returns (.start crates)
      (es ++ [.performed i q a]) (Function.update Γ i (some (g.next checks q a))))
    (fits : ∀ req, g = .checking req →
      (⟨q, a⟩ : Σ q, Answer q) = ⟨.run (.checkAndStoreId req.id), .ok .unique⟩ →
      TrueSum checks req)
    (dated : (⟨q, a⟩ : Σ q, Answer q) ≠ ⟨.now, none⟩) :
    Truthful crates checks (es ++ [.performed i q a]) db'
      (Function.update Γ i (some (g.next checks q a))) where
  accepting := h.accepting.perform live allowed effect
  histories := histories
  accepted j v req hv hreq micros := by
    rcases Clients.update_cases hv with ⟨rfl, heq⟩ | ⟨_, hold⟩
    · cases heq
      rcases next_unjournaled allowed hreq with rfl | ⟨rfl, hcorrect, hanswer⟩
      · obtain ⟨req', rfl⟩ := allows_now allowed
        cases a with
        | none => exact absurd rfl dated
        | some time => exact h.accepted j _ req live hreq micros
      · exact (fits req rfl hanswer).isSum hcorrect micros
    · exact h.accepted j v req hold hreq micros
  unpanicked j hj := by
    rcases Clients.update_cases hj with ⟨rfl, heq⟩ | ⟨_, hold⟩
    · exact next_not_panicked allowed fits dated (Option.some.inj heq)
    · exact h.unpanicked j hold
  journal k entry hk := h.journal_perform live allowed effect hk
  returned := h.returned_concat (fun _ _ heq => by cases heq) fun _ _ heq => by cases heq

theorem finish (h : Truthful crates checks es db Γ) {q : Await} {a : Answer q}
    (live : Γ i = some g) (allowed : g.allows q) (effect : Effect crates checks db q a db')
    (histories : Clients.Histories (sumsProtocol checks) Submission.Returns (.start crates)
      (es ++ [.performed i q a]) (Function.update Γ i none)) :
    Truthful crates checks (es ++ [.performed i q a]) db' (Function.update Γ i none) where
  accepting := by
    have hdrop := (accepting_preserved crates checks).drop (s := ⟨db', true⟩) i
      (h.accepting.perform live allowed effect)
    rwa [Function.update_idem] at hdrop
  histories := histories
  accepted j v req hv hreq := h.accepted j v req (Clients.update_none_cases hv) hreq
  unpanicked j hj := h.unpanicked j (Clients.update_none_cases hj)
  journal k entry hk := h.journal_perform live allowed effect hk
  returned := h.returned_concat (fun _ _ heq => by cases heq) fun _ _ heq => by cases heq

theorem spawn (h : Truthful crates checks es db Γ) {i : ℕ} (task : Task) (new : Γ i = none)
    (unspawned : ∀ t, .spawned i t ∉ es) :
    Truthful crates checks (es ++ [.spawned i task]) db
      (Function.update Γ i (some (.start crates task))) where
  accepting :=
    (accepting_preserved crates checks).spawn (s := ⟨db, true⟩) i task h.accepting new unspawned
  histories := (sums_histories crates checks).spawn (s := ⟨db, true⟩) i
    task h.histories new unspawned
  accepted j v req hv hreq micros := by
    rcases Clients.update_cases hv with ⟨rfl, heq⟩ | ⟨_, hold⟩
    · cases heq
      rw [start_unjournaled] at hreq
      cases hreq
    · exact h.accepted j v req hold hreq micros
  unpanicked j hj := by
    rcases Clients.update_cases hj with ⟨rfl, heq⟩ | ⟨_, hold⟩
    · exact start_not_panicked task (Option.some.inj heq)
    · exact h.unpanicked j hold
  journal := h.journal
  returned := h.returned_concat (fun _ _ heq => by cases heq) fun j t heq => by
    cases heq
    exact unspawned

theorem replied (h : Truthful crates checks es db Γ) {i : ℕ} {o : Outcome} (live : Γ i = some g)
    (returns : g.Returns o) :
    Truthful crates checks (es ++ [.returned i o]) db (Function.update Γ i none) where
  accepting :=
    (accepting_preserved crates checks).returned (s := ⟨db, true⟩) i g o h.accepting live returns
  histories := (sums_histories crates checks).returned (s := ⟨db, true⟩)
    i g o h.histories live returns
  accepted j v req hv hreq := h.accepted j v req (Clients.update_none_cases hv) hreq
  unpanicked j hj := h.unpanicked j (Clients.update_none_cases hj)
  journal := h.journal
  returned j body hspawned hreturned := by
    have hold : .spawned j (.sums body) ∈ es := by
      rcases List.mem_append.mp hspawned with hold | hnew
      · exact hold
      · cases List.mem_singleton.mp hnew
    rcases List.mem_append.mp hreturned with hbefore | hnow
    · exact h.returned j body hold hbefore
    cases List.mem_singleton.mp hnow
    obtain ⟨g', htold, hlive⟩ := h.histories.spawned i (.sums body) hold
    obtain ⟨rfl, _⟩ := hlive g live
    have hreader := path_not_reader htold.path (start_not_reader body)
    cases g with
    | ended o =>
      obtain rfl := returns
      exact h.unpanicked i live
    | reader => exact hreader rfl
    | _ => exact returns

theorem cancel (h : Truthful crates checks es db Γ) (i : ℕ) :
    Truthful crates checks es db (Function.update Γ i none) where
  accepting := (accepting_preserved crates checks).drop (s := ⟨db, true⟩) i h.accepting
  histories := (sums_histories crates checks).drop (s := ⟨db, true⟩) i
    h.histories
  accepted j v req hv hreq := h.accepted j v req (Clients.update_none_cases hv) hreq
  unpanicked j hj := h.unpanicked j (Clients.update_none_cases hj)
  journal := h.journal
  returned := h.returned

theorem restart (h : Truthful crates checks es db Γ) (env : Env) (alive : Bool) :
    Truthful crates checks es (reboot crates checks env ⟨db, alive⟩).db fun _ => none where
  accepting := (accepting_preserved crates checks).restart (s := ⟨db, alive⟩) env h.accepting
  histories := (sums_histories crates checks).restart (s := ⟨db, true⟩) env h.histories
  accepted j v req hv := by cases hv
  unpanicked j hj := by cases hj
  journal k entry hk := by
    rw [(reboot_same crates checks env ⟨db, alive⟩).2.1] at hk
    exact h.journal k entry hk
  returned := h.returned

end Truthful

/-- Every step that accepts only true requests keeps the invariant. -/
theorem truthful_preserved (crates : Crates) (checks : Bool) :
    (sums crates checks).PreservedUnder (sumsProtocol checks) Submission.Returns (.start crates)
      (AcceptsTrueSums crates checks) fun es s Γ => Truthful crates checks es s.db Γ where
  obeys := task_obeys crates checks
  spawn t _ h new unspawned := h.spawn t new unspawned
  perform {es s Γ} i g q k env accepts pending h live allowed := by
    simp only [AcceptsTrueSums, pending] at accepts
    refine h.perform live allowed (perform_effect crates checks q env s.store)
      ((sums_histories crates checks).perform i g q env h.histories live
        allowed) (fun req hg hanswer => ?_) (clock_answered ?_)
    · obtain ⟨rfl, hunique⟩ := Sigma.mk.inj hanswer
      exact accepts (storesId_of_unique (eq_of_heq hunique)) req
        (h.accepting.posted i g req live (by rw [hg]; rfl))
    · rintro rfl
      exact accepts
  finish {es s Γ} i g q env _ detached h live allowed := by
    have hperform := (sums_histories crates checks).perform (s := s.store) i g q env h.histories
      live allowed
    have hdrop := (sums_histories crates checks).drop (s := s.store) i hperform
    rw [Function.update_idem] at hdrop
    exact h.finish live allowed (perform_effect crates checks q env s.store) hdrop
  returned i g o h live returns := h.replied live returns
  cancel i _ h := h.cancel i
  restart env _ h := h.restart env _

/-- For every request: its handling is true exactly if its sum fits, or, without overflow checks,
its `c` is not the wrapped sum. And in every run of any number of concurrent requests to any of the
routes in which every request that is accepted is such a one, all entries of the journal are sums
and no handler of a POST panics. -/
theorem only_true_sums_iff_fits (crates : Crates) (checks : Bool) :
    (∀ req, HandledTruly crates checks req ↔ TrueSum checks req) ∧
    ∀ inputs s es,
      (sums crates checks).machine.run (.initial (first crates checks)) inputs = some (s, es) →
      Clients.Meets (sums crates checks) (AcceptsTrueSums crates checks) []
        (.initial (first crates checks)) inputs →
      (∀ k bytes, s.store.db.journal k = some bytes → ∃ entry : JournalEntry,
        bytes = crates.entryToVec entry ∧ entry.c.toInt = entry.a.toInt + entry.b.toInt) ∧
      ∀ i body, .spawned i (.sums body) ∈ es → .returned i .panicked ∉ es := by
  refine ⟨fun req => ⟨trueSum_of_handledTruly, handledTruly_of_trueSum⟩, ?_⟩
  intro inputs s es run accepts
  obtain ⟨hprocessed, hjournal, _⟩ := first_empty crates checks
  obtain ⟨Γ, hghosted⟩ := Clients.invariant_under (truthful_preserved crates checks)
    (.initial hprocessed hjournal) accepts run
  have inv := hghosted.inv
  refine ⟨fun k bytes hk => ?_, inv.returned⟩
  obtain ⟨i, req, micros, rfl, _⟩ := inv.accepting.journal k bytes hk
  exact ⟨_, rfl, inv.journal k _ hk⟩

end Runs

section Examples

def fitting (crates : Crates) (es : List SumsEvent)
    (_ : Clients.State Await Answer Outcome (Service SumsDb)) : ClientInput Task Env → Bool
  | .perform _ env => env.now.isSome && es.all fun
    | .spawned _ (.sums body) =>
      match crates.requestFromSlice body with
      | .ok req => decide (-2 ^ 31 ≤ req.a.toInt + req.b.toInt) &&
        decide (req.a.toInt + req.b.toInt < 2 ^ 31)
      | .error _ => true
    | _ => true
  | _ => true

theorem accepts_of_fitting {crates : Crates} {checks : Bool} (es : List SumsEvent)
    (s : Clients.State Await Answer Outcome (Service SumsDb)) (input : ClientInput Task Env)
    (h : fitting crates es s input = true) : AcceptsTrueSums crates checks es s input := by
  cases input with
  | perform i env =>
    simp only [fitting, Bool.and_eq_true, List.all_eq_true] at h
    obtain ⟨hnow, hfits⟩ := h
    simp only [AcceptsTrueSums]
    split
    · rintro _ req ⟨body, hspawned, hparsed, _⟩
      have hreq := hfits _ hspawned
      simp only [hparsed, Bool.and_eq_true, decide_eq_true_eq] at hreq
      exact Or.inl hreq
    · exact hnow
    · trivial
  | _ => trivial

theorem one_true_sum : ∃ s es bytes,
    (sums asciiJson true).machine.run (.initial (first asciiJson true)) onePosted =
      some (s, es) ∧
    s.store.db.journal 0 = some bytes ∧ ∃ entry : JournalEntry,
      bytes = asciiJson.entryToVec entry ∧ entry.c.toInt = entry.a.toInt + entry.b.toInt := by
  have hrun : ((sums asciiJson true).machine.run (.initial (first asciiJson true))
      onePosted).map (fun r => (r.1.store.db.journal 0).isSome) = some true := by
    decide +kernel
  have hpasses : (sums asciiJson true).passes (fitting asciiJson) []
      (.initial (first asciiJson true)) onePosted = true := by
    decide +kernel
  obtain ⟨⟨s, es⟩, run, hsome⟩ := Option.map_eq_some_iff.mp hrun
  obtain ⟨bytes, hbytes⟩ := Option.isSome_iff_exists.mp hsome
  exact ⟨s, es, bytes, run, hbytes, ((only_true_sums_iff_fits asciiJson true).2 _ s es run
    (Clients.meets_of_passes accepts_of_fitting hpasses)).1 0 bytes hbytes⟩

def wrappedBody : List UInt8 :=
  bodyOf "\x7b\"id\":\"foobar\",\"a\":2147483647,\"b\":1,\"c\":-2147483648\x7d"

def wrappedPosted : List (ClientInput Task Env) :=
  [.spawn (.sums wrappedBody), .perform 0 (.at 1), .deliver 0, .perform 0 (.at 2), .deliver 0,
    .perform 0 (.at 3), .deliver 0]

def panics : SumsEvent → Bool
  | .returned 0 .panicked => true
  | _ => false

theorem panicked_of_panics {es : List SumsEvent} (h : es.any panics = true) :
    .returned 0 .panicked ∈ es := by
  obtain ⟨e, he, hpanics⟩ := List.any_eq_true.mp h
  unfold panics at hpanics
  split at hpanics
  · exact he
  · cases hpanics

def wrappedEntry : JournalEntry := ⟨"foobar", 2147483647, 1, -2147483648, 2⟩

/-- With overflow checks the handler panics after the identifier is taken; without them it answers
`OK` and the journal has `2147483647 + 1 = -2147483648`. -/
theorem wrapped_sum_accepted :
    (∃ s es, (sums asciiJson true).machine.run (.initial (first asciiJson true))
        (wrappedPosted.take 3) = some (s, es) ∧
      s.store.db.processed "foobar" = true ∧ .returned 0 .panicked ∈ es) ∧
    ∃ s es, (sums asciiJson false).machine.run (.initial (first asciiJson false))
        wrappedPosted = some (s, es) ∧
      .returned 0 (.response 200 "OK\n") ∈ es ∧
      s.store.db.journal 0 = some (asciiJson.entryToVec wrappedEntry) ∧
      ¬ wrappedEntry.c.toInt = wrappedEntry.a.toInt + wrappedEntry.b.toInt := by
  constructor
  · have hrun : ((sums asciiJson true).machine.run (.initial (first asciiJson true))
        (wrappedPosted.take 3)).map
          (fun r => (r.1.store.db.processed "foobar", r.2.any panics)) = some (true, true) := by
      decide +kernel
    obtain ⟨⟨s, es⟩, run, hvalues⟩ := Option.map_eq_some_iff.mp hrun
    obtain ⟨hprocessed, hpanics⟩ := Prod.mk.inj hvalues
    exact ⟨s, es, run, hprocessed, panicked_of_panics hpanics⟩
  · have hrun : ((sums asciiJson false).machine.run (.initial (first asciiJson false))
        wrappedPosted).map (fun r => ((r.2.filterMap (responseTo 0)).contains (200, "OK\n"),
          r.1.store.db.journal 0)) = some (true, some (asciiJson.entryToVec wrappedEntry)) := by
      decide +kernel
    obtain ⟨⟨s, es⟩, run, hvalues⟩ := Option.map_eq_some_iff.mp hrun
    obtain ⟨hok, hjournal⟩ := Prod.mk.inj hvalues
    exact ⟨s, es, run, returned_of_responseTo hok, hjournal, by decide⟩

end Examples

end RustExperiments.Sums
