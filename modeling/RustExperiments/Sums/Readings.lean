/- module: RustExperiments/Sums/Readings
   digest: What the journal shows a client, by what was appended before it came and until it went. -/

import RustExperiments.Sums.Acknowledged
import RustExperiments.Sums.Journal

set_option autoImplicit false
set_option relaxedAutoImplicit false

namespace RustExperiments.Sums

open RustExperiments.Lib

section Log

def appendedIn : SumsEvent → Option JournalEntry
  | .performed _ (.run (.addToJournal entry)) (.ok _) => some entry
  | _ => none

def journaled (es : List SumsEvent) : List JournalEntry := es.filterMap appendedIn

@[simp] theorem journaled_append (xs ys : List SumsEvent) :
    journaled (xs ++ ys) = journaled xs ++ journaled ys := List.filterMap_append

theorem journaled_concat (es : List SumsEvent) (e : SumsEvent) :
    journaled (es ++ [e]) = journaled es ++ (appendedIn e).toList := by
  rw [journaled_append]
  cases h : appendedIn e <;> simp [journaled, h]

theorem journaled_prefix {es es' : List SumsEvent} (h : es <+: es') :
    journaled es <+: journaled es' := h.filterMap appendedIn

theorem appendedIn_performed (i : ℕ) (q : DbRequest) (a : Answer (.run q)) :
    appendedIn (.performed i (.run q) a) = (WorkerEvent.answered q a).appended := by
  cases q <;> cases a <;> rfl

end Log

theorem Submission.next_correct {checks : Bool} {g : Submission} {q : Await} {a : Answer q}
    (allowed : g.allows q) {req : SumRequest}
    (unjournaled : (g.next checks q a).unjournaled = some req) :
    g.unjournaled = some req ∨ Correct checks req := by
  cases g with
  | checking req' =>
    obtain rfl := allowed
    rcases a with e | response
    · cases unjournaled
    cases response with
    | duplicate => cases unjournaled
    | unique =>
      have hafter : (Submission.afterUnique checks req').unjournaled = some req := unjournaled
      unfold Submission.afterUnique at hafter
      split at hafter
      · cases hafter
      · rename_i sum hsum
        split_ifs at hafter with hc
        · cases hafter
          exact Or.inr (by rw [Correct, hsum, hc])
        · cases hafter
  | accepted req' =>
    obtain rfl := allowed
    cases a with
    | none => cases unjournaled
    | some micros => exact Or.inl unjournaled
  | journaling req' micros =>
    obtain rfl := allowed
    cases unjournaled
  | ended o => exact allowed.elim
  | reader =>
    have hnext : Submission.next checks .reader q a = .reader := by
      cases q <;> rfl
    rw [hnext] at unjournaled
    cases unjournaled

/-- The journal, and the handlers that are about to write to it, by what the history has appended. -/
structure Kept (crates : Crates) (checks : Bool) (es : List SumsEvent) (db : SumsDb)
    (Γ : ℕ → Option Submission) : Prop where
  accepting : Accepting crates es db Γ
  holds : Holds crates (journaled es) db
  correct : ∀ i g req, Γ i = some g → g.unjournaled = some req → Correct checks req
  entries : ∀ entry ∈ journaled es, ∃ i req micros, entry = req.entry micros ∧
    Accepted crates es i req ∧ Correct checks req

namespace Kept

variable {crates : Crates} {checks : Bool} {es : List SumsEvent} {db db' : SumsDb}
  {Γ Γ' : ℕ → Option Submission}

theorem quiet (h : Kept crates checks es db Γ) {e : SumsEvent}
    (accepting : Accepting crates (es ++ [e]) db Γ') (silent : appendedIn e = none)
    (correct : ∀ i g req, Γ' i = some g → g.unjournaled = some req → Correct checks req) :
    Kept crates checks (es ++ [e]) db Γ' := by
  have hjournaled : journaled (es ++ [e]) = journaled es := by
    rw [journaled_concat, silent, Option.toList_none, List.append_nil]
  refine ⟨accepting, hjournaled ▸ h.holds, correct, fun entry hentry => ?_⟩
  rw [hjournaled] at hentry
  obtain ⟨i, req, micros, heq, haccepted, hcorrect⟩ := h.entries entry hentry
  exact ⟨i, req, micros, heq, haccepted.append _, hcorrect⟩

theorem perform (h : Kept crates checks es db Γ) {i : ℕ} {g : Submission} (live : Γ i = some g)
    {q : Await} {a : Answer q} (allowed : g.allows q) (effect : Effect crates checks db q a db') :
    Kept crates checks (es ++ [.performed i q a]) db'
      (Function.update Γ i (some (g.next checks q a))) := by
  have haccepting := h.accepting.perform live allowed effect
  have hcorrect : ∀ j v req, Function.update Γ i (some (g.next checks q a)) j = some v →
      v.unjournaled = some req → Correct checks req := by
    intro j v req hv hreq
    rcases Clients.update_cases hv with ⟨_, hself⟩ | ⟨_, hold⟩
    · cases hself
      rcases Submission.next_correct allowed hreq with hbefore | hnow
      · exact h.correct i g req live hbefore
      · exact hnow
    · exact h.correct j v req hold hreq
  cases q with
  | now =>
    have hdb : db' = db := by
      cases effect
      rfl
    subst hdb
    exact h.quiet haccepting rfl hcorrect
  | run q =>
    refine ⟨haccepting, ?_, hcorrect, fun entry hentry => ?_⟩
    · rw [journaled_concat, appendedIn_performed]
      exact h.holds.perform effect
    · rw [journaled_concat] at hentry
      rcases List.mem_append.mp hentry with hold | hnew
      · obtain ⟨j, req, micros, heq, haccepted, hreq⟩ := h.entries entry hold
        exact ⟨j, req, micros, heq, haccepted.append _, hreq⟩
      · rw [Option.mem_toList] at hnew
        have hq : q = .addToJournal entry := by
          unfold appendedIn at hnew
          split at hnew
          · rename_i heq
            cases heq
            rw [Option.some.inj hnew]
          · cases hnew
        subst hq
        obtain ⟨req, micros, rfl, rfl⟩ := allows_append allowed
        exact ⟨i, req, micros, rfl, (h.accepting.unjournaled i _ req live rfl).1.append _,
          h.correct i _ req live rfl⟩

end Kept

section Runs

variable (crates : Crates) (checks : Bool)

theorem kept_fresh : Kept crates checks [] .fresh fun _ => none where
  accepting := .initial (fun _ => rfl) fun _ => rfl
  holds := .fresh crates
  correct _ _ _ h := by cases h
  entries _ h := by cases h

theorem kept_preserved :
    (sums crates checks).Preserved (sumsProtocol checks) Submission.Returns (.start crates)
      fun es s Γ => Kept crates checks es s.db Γ where
  obeys := task_obeys crates checks
  spawn i t h hnone hunspawned := by
    have haccepting := (accepting_preserved crates checks).spawn i t h.accepting hnone hunspawned
    refine h.quiet haccepting rfl fun j g req hg hreq => ?_
    rcases Clients.update_cases hg with ⟨_, hself⟩ | ⟨_, hold⟩
    · cases hself
      rw [start_unjournaled] at hreq
      cases hreq
    · exact h.correct j g req hold hreq
  perform i g q e h live allowed := h.perform live allowed (perform_effect crates checks q e _)
  returned i g o h live returns := by
    have haccepting := (accepting_preserved crates checks).returned i g o h.accepting live returns
    exact h.quiet haccepting rfl fun j g req hg hreq =>
      h.correct j g req (Clients.update_none_cases hg) hreq
  drop i h :=
    ⟨(accepting_preserved crates checks).drop i h.accepting, h.holds,
      fun j g req hg hreq => h.correct j g req (Clients.update_none_cases hg) hreq, h.entries⟩
  restart env h :=
    ⟨(accepting_preserved crates checks).restart env h.accepting, h.holds.restart env,
      fun _ _ _ hg => (by cases hg), h.entries⟩

variable {crates checks} {alive : Bool} {inputs : List (ClientInput Task Env)}
  {s : Clients.State Await Answer Outcome (Service SumsDb)} {es : List SumsEvent}

theorem kept_of_run
    (run : (sums crates checks).machine.run (.initial ⟨.fresh, alive⟩) inputs = some (s, es)) :
    ∃ Γ, Kept crates checks es s.store.db Γ := by
  obtain ⟨Γ, h⟩ := Clients.invariant (kept_preserved crates checks) (kept_fresh crates checks) run
  exact ⟨Γ, h.inv⟩

/-- No identifier is journaled twice. -/
theorem Kept.distinct {db : SumsDb} {Γ : ℕ → Option Submission} (h : Kept crates checks es db Γ) :
    ((journaled es).map JournalEntry.id).Nodup := by
  rw [List.Nodup, List.pairwise_map, List.pairwise_iff_getElem]
  intro k k' hk hk' hlt hid
  have hat : ∀ j (hj : j < (journaled es).length),
      db.journal j = some (crates.entryToVec (journaled es)[j]) := by
    intro j hj
    rw [h.holds.entries, List.getElem?_eq_getElem hj, Option.map_some]
  have hsame := h.accepting.distinct k k' _ _ (hat k hk) (hat k' hk') hid
  omega

theorem journalHandler_eq (n : Option ℕ) : journalHandler n =
    .await (.run (.getJournal (n.getD defaultRequestSize))) fun a =>
      .ret (.json (.journal (a.toOption.getD []))) := by
  rw [journalHandler]
  congr
  funext a
  cases a <;> rfl

theorem returned_journal
    (run : (sums crates checks).machine.run (.initial ⟨.fresh, alive⟩) inputs = some (s, es))
    {i : ℕ} {n : Option ℕ} {r : Outcome} (spawned : .spawned i (.journal n) ∈ es)
    (returned : .returned i r ∈ es) :
    ∃ a : Except String (List JournalEntry),
      .performed i (.run (.getJournal (n.getD defaultRequestSize))) a ∈ es ∧
        r = .json (.journal (a.toOption.getD [])) := by
  obtain ⟨g, htold⟩ := Clients.told_of_run (fun t => Proc.obeys_itself _) run spawned
  have hpath := htold.path
  rw [htold.returned r returned, show (sums crates checks).start (.journal n) = _ from
    journalHandler_eq n] at hpath
  obtain ⟨a, hanswers, hr⟩ := Proc.path_once hpath
  refine ⟨a, Clients.performed_of_mem ?_, hr⟩
  rw [hanswers]
  exact List.mem_singleton_self _

end Runs

/-- What the journal shows and what the clients of the second part of a history are told, by what
was appended in the first. -/
structure Faithful (crates : Crates) (checks : Bool) (es₁ es₂ : List SumsEvent) : Prop where
  /-- An entry is a correct sum that was POSTed and accepted. -/
  entries : ∀ entry ∈ journaled (es₁ ++ es₂), ∃ i req micros, entry = req.entry micros ∧
    Accepted crates (es₁ ++ es₂) i req ∧ Correct checks req
  distinct : ((journaled (es₁ ++ es₂)).map JournalEntry.id).Nodup
  /-- `OK` is the word for an entry, or for one that could not be appended. -/
  acknowledged : ∀ i body, .spawned i (.sums body) ∈ es₁ →
    .returned i (.response 200 "OK\n") ∈ es₁ → ∃ req micros,
      crates.requestFromSlice body = .ok req ∧ (req.entry micros ∈ journaled es₁ ∨
        ∃ e, .performed i (.run (.addToJournal (req.entry micros))) (.error e) ∈ es₁)
  /-- A page is empty, or it ends with the last entry at one moment while its client waited. -/
  page : ∀ i n r, .spawned i (.journal n) ∈ es₂ → .returned i r ∈ es₂ →
    r = .json (.journal []) ∨ ∃ log, journaled es₁ <+: log ∧ log <+: journaled (es₁ ++ es₂) ∧
      r = .json (.journal (lastEntries (n.getD defaultRequestSize) log))

theorem faithful_of_runs {crates : Crates} {checks alive : Bool}
    {inputs₁ inputs₂ : List (ClientInput Task Env)}
    {mid s : Clients.State Await Answer Outcome (Service SumsDb)} {es₁ es₂ : List SumsEvent}
    (run₁ : (sums crates checks).machine.run (.initial ⟨.fresh, alive⟩) inputs₁ = some (mid, es₁))
    (run₂ : (sums crates checks).machine.run mid inputs₂ = some (s, es₂)) :
    Faithful crates checks es₁ es₂ := by
  have hall := Machine.run_append _ run₁ run₂
  obtain ⟨Γ, hkept⟩ := kept_of_run hall
  refine ⟨hkept.entries, hkept.distinct, ?_, ?_⟩
  · intro i body spawned returned
    obtain ⟨g, htold⟩ := Clients.told_of_run (task_obeys crates checks) run₁ spawned
    obtain ⟨req, hparsed, micros, a, hmem⟩ := ok_appends htold.path (htold.returned _ returned)
    have hperformed := Clients.performed_of_mem hmem
    refine ⟨req, micros, hparsed, ?_⟩
    cases a with
    | ok v => exact Or.inl (List.mem_filterMap.mpr ⟨_, hperformed, rfl⟩)
    | error e => exact Or.inr ⟨e, hperformed⟩
  · intro i n r spawned returned
    obtain ⟨a, hperformed, rfl⟩ := returned_journal hall (List.mem_append_right _ spawned)
      (List.mem_append_right _ returned)
    cases a with
    | error e => exact Or.inl rfl
    | ok entries =>
      obtain ⟨inputs, u, before, env, hrun, hprefix, ha⟩ :=
        Clients.answered_within run₁ run₂ spawned hperformed
      obtain ⟨Γ', hbefore⟩ := kept_of_run hrun
      obtain ⟨_, rfl⟩ := serve_getJournal hbefore.holds ha
      refine Or.inr ⟨journaled (es₁ ++ before), ?_, ?_, rfl⟩
      · exact journaled_prefix (List.prefix_append es₁ before)
      · exact journaled_prefix ((List.prefix_append_right_inj es₁).mpr hprefix)

end RustExperiments.Sums
