/- module: RustExperiments/Sums/Acknowledged
   digest: When an acknowledged sum is journaled, and when an accepted one stays unjournaled. -/

import RustExperiments.Sums.Acceptance

set_option autoImplicit false
set_option relaxedAutoImplicit false

namespace RustExperiments.Sums

open RustExperiments.Lib

section Condition

variable (crates : Crates) (checks : Bool)

/-- The check `c == a + b` of the code. -/
def Correct (req : SumRequest) : Prop := i32Add checks req.a req.b = some req.c

/-- The worker is there, none of the seven operations of an append fails, and there is room. -/
def AppendSucceeds (env : Env) (s : Service SumsDb) : Prop :=
  s.alive = true ∧ Session.Quiet (env.faults.take 7) ∧ s.db.idx < crates.capacity

/-- The worker is there, none of the five operations of a check fails, and the identifier is new
and has room. -/
def StoresId (env : Env) (s : Service SumsDb) (id : String) : Prop :=
  s.alive = true ∧ Session.Quiet (env.faults.take 5) ∧ s.db.processed id = false ∧
    ((s.db.processedIds.getD ∅).insert id true).keys.card ≤ crates.capacity

/-- The journal has an entry of this identifier. -/
def Journaled (db : SumsDb) (id : String) : Prop :=
  ∃ k entry, db.journal k = some (crates.entryToVec entry) ∧ entry.id = id

/-- The identifier of a correct request of the client is taken, and its sum is not journaled. -/
def Owes (es : List SumsEvent) (db : SumsDb) (i : ℕ) : Prop :=
  ∃ req, Accepted crates es i req ∧ Correct checks req ∧ ¬ Journaled crates db req.id

/-- An append succeeds, also one that nobody waits for; the clock can be read; a check that nobody
waits for stores no identifier of a correct request; and no client is dropped, by itself or by a
restart, whose correct request is accepted and not journaled. -/
def Safe (es : List SumsEvent) (s : Clients.State Await Answer Outcome (Service SumsDb)) :
    ClientInput Task Env → Prop
  | .perform i env =>
    match s.clients.lookup i with
    | some (.pending (.run (.addToJournal _)) _) => AppendSucceeds crates env s.store
    | some (.pending .now _) => env.now.isSome = true
    | some (.detached (.run (.addToJournal _))) => AppendSucceeds crates env s.store
    | some (.detached .now) => False
    | some (.detached (.run (.checkAndStoreId id))) =>
      StoresId crates env s.store id → ∀ req, Posted crates es i req → ¬ Correct checks req
    | _ => True
  | .cancel i => ¬ Owes crates checks es s.store.db i
  | .restart _ => ∀ i, ¬ Owes crates checks es s.store.db i
  | _ => True

end Condition

section Worker

open Session

variable {crates : Crates} {checks : Bool} {db db' : SumsDb}

/-- The only key of `JOURNAL_META`. -/
def Indexed (db : SumsDb) : Prop := (db.journalMeta.getD ∅).keys ⊆ {"idx"}

theorem Indexed.insert (h : Indexed db) (next : ℕ) :
    ((db.journalMeta.getD ∅).insert "idx" next).keys ⊆ {"idx"} := by
  intro key hkey
  rw [Finmap.mem_keys, Finmap.mem_insert, ← Finmap.mem_keys] at hkey
  rcases hkey with rfl | hold
  · exact Finset.mem_singleton_self _
  · exact h hold

theorem Indexed.perform (h : Indexed db) {q : Await} {a : Answer q}
    (effect : Effect crates checks db q a db') : Indexed db' := by
  cases effect with
  | journaled entry next room advanced => exact h.insert next
  | _ => exact h

theorem insertInto_makes {K V : Type} [DecidableEq K] {table : Table K V} {key : K} {value : V}
    (room : (table.insert key value).keys.card ≤ crates.capacity) (db : SumsDb) :
    Makes 1 (insertInto crates table key value) db (table.insert key value) db := by
  refine makes_bind (k := 0) (makes_op db) ?_
  rw [if_pos room]
  exact makes_pure _ db

theorem addToJournal_makes (growing : Growing db) (indexed : Indexed db)
    (room : db.idx < crates.capacity) (checks : Bool) (entry : JournalEntry) :
    Makes 7 (handleAddToJournal crates checks entry) db ()
      (db.append (crates.entryToVec entry) (db.idx + 1)) := by
  have hroom : ((db.sumsJournal.getD ∅).insert db.idx (crates.entryToVec entry)).keys.card ≤
      crates.capacity := by
    rw [growing.insert_keys, Finset.card_range]
    exact room
  have hmeta : ((db.journalMeta.getD ∅).insert "idx" (db.idx + 1)).keys.card ≤
      crates.capacity := by
    have hone := Finset.card_le_card (indexed.insert (db.idx + 1))
    rw [Finset.card_singleton] at hone
    omega
  have hnext : u64Add checks db.idx 1 = some (db.idx + 1) :=
    u64Fit_of_lt (lt_of_le_of_lt room crates.capacity_lt)
  refine makes_bind (k := 6) (makes_begin db) ?_
  refine makes_bind (k := 5) (makes_op db) (makes_bind (k := 4) (makes_op db) ?_)
  refine makes_bind (k := 3) (makes_op db) (makes_bind (k := 2) (insertInto_makes hroom db) ?_)
  refine makes_bind (n := 0) (k := 2) (a := db.idx + 1) (s := db) (makes_nothing fun faults => ?_) ?_
  · change checked (u64Add checks db.idx 1) db faults = _
    rw [hnext]
    rfl
  · exact makes_bind (k := 1) (insertInto_makes hmeta db) (makes_commit db _)

theorem checkAndStoreId_makes {id : String} (new : db.processed id = false)
    (room : ((db.processedIds.getD ∅).insert id true).keys.card ≤ crates.capacity) :
    Makes 5 (handleCheckAndStoreId crates id) db .unique (db.storeId id) := by
  refine makes_bind (k := 4) (makes_begin db) (makes_bind (k := 3) (makes_op db) ?_)
  refine makes_bind (k := 2) (makes_op db) ?_
  rw [if_neg (by rw [← SumsDb.processed, new]; exact Bool.false_ne_true)]
  refine makes_bind (k := 1) (insertInto_makes room db) ?_
  exact makes_bind_pure (makes_commit db _)

theorem append_succeeds {env : Env} {s : Service SumsDb} (growing : Growing s.db)
    (indexed : Indexed s.db) (succeeds : AppendSucceeds crates env s) (entry : JournalEntry) :
    (perform crates checks (.run (.addToJournal entry)) env s).1 = .ok () := by
  obtain ⟨halive, hquiet, hroom⟩ := succeeds
  have hserve := (Service.serve_makes halive
    (addToJournal_makes growing indexed hroom checks entry)).1 hquiet
  change (s.serve (handleAddToJournal crates checks entry) env.faults).1 = _
  rw [hserve]

theorem unique_room {id : String}
    (h : (handleCheckAndStoreId crates id).Ends db (.ok .unique) db') :
    ((db.processedIds.getD ∅).insert id true).keys.card ≤ crates.capacity := by
  rcases ends_begin_bind h with ⟨_, _, hr⟩ | h
  · cases hr
  rcases ends_op_bind h with ⟨_, _, hr⟩ | h
  · cases hr
  rcases ends_op_bind h with ⟨_, _, hr⟩ | h
  · cases hr
  split_ifs at h
  · cases (ends_pure h).1
  rcases insertInto_bind h with ⟨_, _, hr⟩ | ⟨hroom, _⟩
  · cases hr
  · exact hroom

theorem storesId_of_unique {id : String} {env : Env} {s : Service SumsDb}
    (unique : (perform crates checks (.run (.checkAndStoreId id)) env s).1 = .ok .unique) :
    StoresId crates env s id := by
  have hnew : s.db.processed id = false := by
    have heffect := perform_effect crates checks (.run (.checkAndStoreId id)) env s
    rw [unique] at heffect
    generalize (perform crates checks (.run (.checkAndStoreId id)) env s).2.db = db' at heffect
    cases heffect with
    | unique _ new => exact new
  change (s.serve (handleCheckAndStoreId crates id) env.faults).1 = _ at unique
  have hroom : ((s.db.processedIds.getD ∅).insert id true).keys.card ≤ crates.capacity := by
    rcases Service.serve_ends (handleCheckAndStoreId crates id) env.faults s with
      ⟨v, hok, hends⟩ | ⟨message, herror, _⟩
    · rw [unique] at hok
      cases hok
      exact unique_room hends
    · rw [unique] at herror
      cases herror
  cases halive : s.alive with
  | false =>
    rw [Service.serve, halive] at unique
    cases unique
  | true =>
    refine ⟨halive, ?_, hnew, hroom⟩
    by_contra hfault
    obtain ⟨message, herror⟩ :=
      (Service.serve_makes halive (checkAndStoreId_makes hnew hroom)).2 hfault
    rw [herror] at unique
    cases unique

end Worker

section Invariant

variable {crates : Crates} {checks : Bool} {es : List SumsEvent} {db db' : SumsDb}
  {Γ : ℕ → Option Submission} {i : ℕ} {g : Submission}

theorem acceptance_performed {j : ℕ} {q : Await} {a : Answer q} {id : String}
    (h : acceptance (.performed i q a) = some (j, id)) :
    j = i ∧ (⟨q, a⟩ : Σ q, Answer q) = ⟨.run (.checkAndStoreId id), .ok .unique⟩ := by
  unfold acceptance at h
  split at h
  · rename_i heq
    cases h
    cases heq
    exact ⟨rfl, rfl⟩
  · cases h

theorem accepted_performed {j : ℕ} {q : Await} {a : Answer q} {req : SumRequest}
    (h : Accepted crates (es ++ [.performed i q a]) j req) :
    Accepted crates es j req ∨ j = i ∧ Posted crates es i req ∧
      (⟨q, a⟩ : Σ q, Answer q) = ⟨.run (.checkAndStoreId req.id), .ok .unique⟩ := by
  obtain ⟨haccepted, body, hspawned, hparsed⟩ := h
  have hposted : Posted crates es j req := by
    refine ⟨body, ?_, hparsed⟩
    rcases List.mem_append.mp hspawned with hold | hnew
    · exact hold
    · cases List.mem_singleton.mp hnew
  rw [acceptances_append] at haccepted
  rcases List.mem_append.mp haccepted with hold | hnew
  · exact Or.inl ⟨hold, hposted⟩
  · obtain ⟨e, he, hacceptance⟩ := List.mem_filterMap.mp hnew
    rw [List.mem_singleton.mp he] at hacceptance
    obtain ⟨rfl, hanswer⟩ := acceptance_performed hacceptance
    exact Or.inr ⟨rfl, hposted, hanswer⟩

theorem Journaled.perform {id : String} (growing : Growing db) {q : Await} {a : Answer q}
    (effect : Effect crates checks db q a db') (h : Journaled crates db id) :
    Journaled crates db' id := by
  obtain ⟨k, entry, hk, hid⟩ := h
  exact ⟨k, entry, growing.extends_perform effect hk, hid⟩

/-- What the history, the tables and the handlers say about each other where every step was
safe. -/
structure Acknowledging (crates : Crates) (checks : Bool) (es : List SumsEvent) (db : SumsDb)
    (Γ : ℕ → Option Submission) : Prop where
  accepting : Accepting crates es db Γ
  growing : Growing db
  indexed : Indexed db
  spawned : Clients.SpawnedOnce es
  posted : ∀ i id, (i, id) ∈ acceptances es → ∃ req, Posted crates es i req ∧ req.id = id
  appended : ∀ i entry a, .performed i (.run (.addToJournal entry)) a ∈ es →
    ∃ k, db.journal k = some (crates.entryToVec entry)
  settled : ∀ i req, Accepted crates es i req → Correct checks req →
    Journaled crates db req.id ∨ ∃ g, Γ i = some g ∧ g.unjournaled = some req

namespace Acknowledging

theorem initial {db : SumsDb} (unprocessed : ∀ id, db.processed id = false)
    (unwritten : ∀ k, db.journal k = none) (growing : Growing db) (indexed : Indexed db) :
    Acknowledging crates checks [] db fun _ => none where
  accepting := .initial unprocessed unwritten
  growing := growing
  indexed := indexed
  spawned _ _ _ h := by cases h
  posted _ _ h := by cases h
  appended _ _ _ h := by cases h
  settled _ _ h := by cases h.1

theorem paid (h : Acknowledging crates checks es db Γ) (live : Γ i = some g)
    (nothing : g.unjournaled = none) : ¬ Owes crates checks es db i := by
  rintro ⟨req, haccepted, hcorrect, hunjournaled⟩
  rcases h.settled i req haccepted hcorrect with hjournaled | ⟨g', hg', hreq⟩
  · exact hunjournaled hjournaled
  · rw [live] at hg'
    cases hg'
    rw [nothing] at hreq
    cases hreq

theorem unjournaled_next {q : Await} {a : Answer q} (allowed : g.allows q)
    (effect : Effect crates checks db q a db')
    (appends : ∀ entry message, (⟨q, a⟩ : Σ q, Answer q) ≠
      ⟨.run (.addToJournal entry), .error message⟩)
    (dated : (⟨q, a⟩ : Σ q, Answer q) ≠ ⟨.now, none⟩) {req : SumRequest}
    (unjournaled : g.unjournaled = some req) :
    Journaled crates db' req.id ∨ (g.next checks q a).unjournaled = some req := by
  cases g with
  | accepted req' =>
    obtain rfl := allowed
    cases a with
    | none => exact absurd rfl dated
    | some micros => exact Or.inr unjournaled
  | journaling req' micros =>
    obtain rfl := allowed
    cases unjournaled
    cases effect with
    | failed _ message => exact absurd rfl (appends _ message)
    | journaled _ next room advanced => exact Or.inl ⟨db.idx, req.entry micros, by simp, rfl⟩
  | _ => cases unjournaled

theorem posted_once (h : Acknowledging crates checks es db Γ) {req req' : SumRequest}
    (posted : Posted crates es i req) (posted' : Posted crates es i req') : req' = req := by
  obtain ⟨body, hspawned, hparsed, _⟩ := posted
  obtain ⟨body', hspawned', hparsed', _⟩ := posted'
  cases h.spawned i _ _ hspawned hspawned'
  rw [hparsed] at hparsed'
  exact (Except.ok.inj hparsed').symm

theorem perform (h : Acknowledging crates checks es db Γ) {q : Await} {a : Answer q}
    (live : Γ i = some g) (allowed : g.allows q) (effect : Effect crates checks db q a db')
    (appends : ∀ entry message, (⟨q, a⟩ : Σ q, Answer q) ≠
      ⟨.run (.addToJournal entry), .error message⟩)
    (dated : (⟨q, a⟩ : Σ q, Answer q) ≠ ⟨.now, none⟩) :
    Acknowledging crates checks (es ++ [.performed i q a]) db'
      (Function.update Γ i (some (g.next checks q a))) where
  accepting := h.accepting.perform live allowed effect
  growing := h.growing.perform effect
  indexed := h.indexed.perform effect
  spawned := h.spawned.other fun _ _ heq => by cases heq
  posted j id hmem := by
    rw [acceptances_append] at hmem
    rcases List.mem_append.mp hmem with hold | hnew
    · obtain ⟨req, hposted, hid⟩ := h.posted j id hold
      exact ⟨req, hposted.append _, hid⟩
    · obtain ⟨e, he, hacceptance⟩ := List.mem_filterMap.mp hnew
      rw [List.mem_singleton.mp he] at hacceptance
      obtain ⟨rfl, hanswer⟩ := acceptance_performed hacceptance
      cases hanswer
      obtain ⟨req, rfl, rfl⟩ := allows_check allowed
      exact ⟨req, (h.accepting.posted j _ req live rfl).append _, rfl⟩
  appended j entry b hmem := by
    rcases List.mem_append.mp hmem with hold | hnew
    · obtain ⟨k, hk⟩ := h.appended j entry b hold
      exact ⟨k, h.growing.extends_perform effect hk⟩
    · cases List.mem_singleton.mp hnew
      cases effect with
      | failed _ message => exact absurd rfl (appends entry message)
      | journaled _ next room advanced => exact ⟨db.idx, by simp⟩
  settled j req haccepted hcorrect := by
    rcases accepted_performed haccepted with hold | ⟨rfl, hposted, hanswer⟩
    · rcases h.settled j req hold hcorrect with hjournaled | ⟨g', hg', hreq⟩
      · exact Or.inl (hjournaled.perform h.growing effect)
      by_cases hji : j = i
      · subst hji
        rw [live] at hg'
        cases hg'
        rcases unjournaled_next allowed effect appends dated hreq with hjournaled | hnext
        · exact Or.inl hjournaled
        · exact Or.inr ⟨_, Function.update_self .., hnext⟩
      · exact Or.inr ⟨g', (Function.update_of_ne hji _ _).trans hg', hreq⟩
    · cases hanswer
      obtain ⟨req', rfl, _⟩ := allows_check allowed
      obtain rfl := h.posted_once hposted (h.accepting.posted j _ req' live rfl)
      refine Or.inr ⟨_, Function.update_self .., ?_⟩
      have hafter : Submission.afterUnique checks req' = .accepted req' := by
        rw [Submission.afterUnique, hcorrect]
        exact if_pos rfl
      exact (congrArg Submission.unjournaled hafter).trans rfl

theorem drop (h : Acknowledging crates checks es db Γ) (i : ℕ)
    (settled : ¬ Owes crates checks es db i) :
    Acknowledging crates checks es db (Function.update Γ i none) where
  accepting := (accepting_preserved crates checks).drop (s := ⟨db, true⟩) i h.accepting
  growing := h.growing
  indexed := h.indexed
  spawned := h.spawned
  posted := h.posted
  appended := h.appended
  settled j req haccepted hcorrect := by
    by_cases hji : j = i
    · subst hji
      refine Or.inl ?_
      by_contra hunjournaled
      exact settled ⟨req, haccepted, hcorrect, hunjournaled⟩
    · rw [Function.update_of_ne hji]
      exact h.settled j req haccepted hcorrect

theorem spawn (h : Acknowledging crates checks es db Γ) {i : ℕ} (t : Task) (new : Γ i = none)
    (unspawned : ∀ t', .spawned i t' ∉ es) :
    Acknowledging crates checks (es ++ [.spawned i t]) db
      (Function.update Γ i (some (.start crates t))) where
  accepting :=
    (accepting_preserved crates checks).spawn (s := ⟨db, true⟩) i t h.accepting new unspawned
  growing := h.growing
  indexed := h.indexed
  spawned := h.spawned.spawn unspawned t
  posted j id hmem := by
    rw [acceptances_concat rfl] at hmem
    obtain ⟨req, hposted, hid⟩ := h.posted j id hmem
    exact ⟨req, hposted.append _, hid⟩
  appended j entry a hmem := by
    rcases List.mem_append.mp hmem with hold | hnew
    · exact h.appended j entry a hold
    · cases List.mem_singleton.mp hnew
  settled j req haccepted hcorrect := by
    obtain ⟨hmem, body, hspawned, hparsed⟩ := haccepted
    rw [acceptances_concat rfl] at hmem
    obtain ⟨_, ⟨body', hspawned', _⟩, _⟩ := h.posted j req.id hmem
    have hji : j ≠ i := by
      rintro rfl
      exact unspawned _ hspawned'
    have hold : .spawned j (.sums body) ∈ es := by
      rcases List.mem_append.mp hspawned with hold | hnew
      · exact hold
      · cases List.mem_singleton.mp hnew
        exact absurd rfl hji
    rw [Function.update_of_ne hji]
    exact h.settled j req ⟨hmem, body, hold, hparsed⟩ hcorrect

theorem returned (h : Acknowledging crates checks es db Γ) {i : ℕ} {o : Outcome}
    (live : Γ i = some g) (returns : g.Returns o) :
    Acknowledging crates checks (es ++ [.returned i o]) db (Function.update Γ i none) := by
  have hnothing : g.unjournaled = none := by
    cases g <;> first | rfl | exact returns.elim
  have hdrop := h.drop i (h.paid live hnothing)
  refine ⟨(accepting_preserved crates checks).returned (s := ⟨db, true⟩) i g o h.accepting live
    returns, hdrop.growing, hdrop.indexed,
    hdrop.spawned.other (fun _ _ heq => by cases heq), ?_, ?_, ?_⟩
  · intro j id hmem
    rw [acceptances_concat rfl] at hmem
    obtain ⟨req, hposted, hid⟩ := hdrop.posted j id hmem
    exact ⟨req, hposted.append _, hid⟩
  · intro j entry a hmem
    rcases List.mem_append.mp hmem with hold | hnew
    · exact hdrop.appended j entry a hold
    · cases List.mem_singleton.mp hnew
  · rintro j req ⟨hmem, body, hspawned, hparsed⟩ hcorrect
    rw [acceptances_concat rfl] at hmem
    have hold : .spawned j (.sums body) ∈ es := by
      rcases List.mem_append.mp hspawned with hold | hnew
      · exact hold
      · cases List.mem_singleton.mp hnew
    exact hdrop.settled j req ⟨hmem, body, hold, hparsed⟩ hcorrect

theorem restart (h : Acknowledging crates checks es db Γ)
    (settled : ∀ i, ¬ Owes crates checks es db i) (env : Env) (alive : Bool) :
    Acknowledging crates checks es (reboot crates checks env ⟨db, alive⟩).db fun _ => none := by
  obtain ⟨_, hjournal, hgrowing⟩ := reboot_same crates checks env ⟨db, alive⟩
  refine ⟨(accepting_preserved crates checks).restart (s := ⟨db, alive⟩) env h.accepting,
    hgrowing h.growing, ?_, h.spawned, h.posted, ?_, ?_⟩
  · rcases reboot_cases crates checks env ⟨db, alive⟩ with hdb | ⟨value, hdb⟩
    · rw [hdb]
      exact h.indexed
    · rw [hdb]
      exact h.indexed
  · intro j entry a hmem
    rw [hjournal]
    exact h.appended j entry a hmem
  · intro j req haccepted hcorrect
    refine Or.inl ?_
    by_contra hunjournaled
    rw [Journaled, hjournal] at hunjournaled
    exact settled j ⟨req, haccepted, hcorrect, hunjournaled⟩

end Acknowledging

end Invariant

section Runs

variable {crates : Crates} {checks : Bool}

theorem append_answered {entry : JournalEntry} {env : Env} {s : Service SumsDb}
    (growing : Growing s.db) (indexed : Indexed s.db) {q : Await}
    (succeeds : q = .run (.addToJournal entry) → AppendSucceeds crates env s) (message : String) :
    (⟨q, (perform crates checks q env s).1⟩ : Σ q, Answer q) ≠
      ⟨.run (.addToJournal entry), .error message⟩ := by
  intro heq
  obtain ⟨rfl, hanswer⟩ := Sigma.mk.inj heq
  have hok : (perform crates checks (.run (.addToJournal entry)) env s).1 = .ok () :=
    append_succeeds growing indexed (succeeds rfl) entry
  rw [eq_of_heq hanswer] at hok
  cases hok

theorem clock_answered {env : Env} {s : Service SumsDb} {q : Await}
    (reads : q = .now → env.now.isSome = true) :
    (⟨q, (perform crates checks q env s).1⟩ : Σ q, Answer q) ≠ ⟨.now, none⟩ := by
  intro heq
  obtain ⟨rfl, hanswer⟩ := Sigma.mk.inj heq
  have hnone : env.now = none := eq_of_heq hanswer
  have hsome := reads rfl
  rw [hnone] at hsome
  cases hsome

theorem next_unjournaled {g : Submission} {q : Await} {a : Answer q} (allowed : g.allows q)
    {req : SumRequest} (h : (g.next checks q a).unjournaled = some req) :
    q = .now ∨ g = .checking req ∧ Correct checks req ∧
      (⟨q, a⟩ : Σ q, Answer q) = ⟨.run (.checkAndStoreId req.id), .ok .unique⟩ := by
  cases g with
  | checking req' =>
    obtain rfl := allowed
    rcases a with e | response
    · cases h
    cases response with
    | duplicate => cases h
    | unique =>
      change (Submission.afterUnique checks req').unjournaled = some req at h
      obtain rfl := Submission.afterUnique_unjournaled h
      refine Or.inr ⟨rfl, ?_, rfl⟩
      unfold Submission.afterUnique at h
      split at h
      · cases h
      · rename_i sum hsum
        split_ifs at h with hc
        · rw [Correct, hsum, hc]
        · cases h
  | accepted req' => exact Or.inl allowed
  | journaling req' micros => cases h
  | ended o => exact allowed.elim
  | reader => cases h

/-- Every safe step keeps the invariant. -/
theorem acknowledging_preserved (crates : Crates) (checks : Bool) :
    (sums crates checks).PreservedUnder (sumsProtocol checks) Submission.Returns (.start crates)
      (Safe crates checks) fun es s Γ => Acknowledging crates checks es s.db Γ where
  obeys := task_obeys crates checks
  spawn t _ h new unspawned := h.spawn t new unspawned
  perform {es s Γ} i g q k env safe pending h live allowed := by
    simp only [Safe, pending] at safe
    refine h.perform live allowed (perform_effect crates checks q env s.store)
      (fun entry message => append_answered h.growing h.indexed ?_ message) (clock_answered ?_)
    · rintro rfl
      exact safe
    · rintro rfl
      exact safe
  finish {es s Γ} i g q env safe detached h live allowed := by
    simp only [Safe, detached] at safe
    have hperformed := h.perform live allowed (perform_effect crates checks q env s.store)
      (fun entry message => append_answered h.growing h.indexed (by rintro rfl; exact safe) message)
      (clock_answered (by rintro rfl; exact safe.elim))
    have hpaid : ¬ Owes crates checks (es ++ [.performed i q (perform crates checks q env s.store).1])
        (perform crates checks q env s.store).2.db i := by
      cases hnext : (g.next checks q (perform crates checks q env s.store).1).unjournaled with
      | none => exact hperformed.paid (Function.update_self ..) hnext
      | some req =>
        rcases next_unjournaled allowed hnext with rfl | ⟨rfl, hcorrect, hanswer⟩
        · exact safe.elim
        · obtain ⟨rfl, hunique⟩ := Sigma.mk.inj hanswer
          have hposted := h.accepting.posted i _ req live rfl
          exact absurd hcorrect (safe (storesId_of_unique (eq_of_heq hunique)) req hposted)
    have hdropped := hperformed.drop i hpaid
    rwa [Function.update_idem] at hdropped
  returned i g o h live returns := h.returned live returns
  cancel i safe h := h.drop i safe
  restart env safe h := h.restart safe env _

theorem afterUnique_not_ok (req : SumRequest) :
    Submission.afterUnique checks req ≠ .ended (.response 200 "OK\n") := by
  unfold Submission.afterUnique
  split
  · exact fun h => by cases h
  · split_ifs
    · exact fun h => by cases h
    · exact fun h => by cases h

theorem path_appends {g g' : Submission} {answers : List (Σ q, Answer q)}
    (path : (sumsProtocol checks).Path g answers g') {req : SumRequest}
    (request : g.request = some req) (ok : g'.Returns (.response 200 "OK\n")) :
    ∃ micros a, (⟨.run (.addToJournal (req.entry micros)), a⟩ : Σ q, Answer q) ∈ answers := by
  have hended : ∀ {o answers}, (sumsProtocol checks).Path (.ended o) answers g' →
      o = .response 200 "OK\n" := by
    intro o answers hpath
    obtain ⟨_, rfl⟩ := hpath.of_final fun _ h => h
    exact ok.symm
  induction path with
  | nil g =>
    cases g with
    | checking req' => exact ok.elim
    | accepted req' => exact ok.elim
    | journaling req' micros => exact ok.elim
    | ended o => cases request
    | reader => cases request
  | @cons g g' q a answers allowed rest ih =>
    cases g with
    | checking req' =>
      obtain rfl := allowed
      cases request
      rcases a with e | response
      · cases hended rest
      cases response with
      | duplicate => cases hended rest
      | unique =>
        change (sumsProtocol checks).Path (.afterUnique checks req) answers g' at rest
        rcases Submission.afterUnique_cases checks req with hafter | ⟨o, hafter⟩
        · obtain ⟨micros, b, hmem⟩ := ih (congrArg Submission.request hafter) ok hended
          exact ⟨micros, b, List.mem_cons_of_mem _ hmem⟩
        · rw [hafter] at rest
          obtain rfl := hended rest
          exact absurd hafter (afterUnique_not_ok req)
    | accepted req' =>
      obtain rfl := allowed
      cases request
      cases a with
      | none => cases hended rest
      | some micros =>
        obtain ⟨micros', b, hmem⟩ := ih rfl ok hended
        exact ⟨micros', b, List.mem_cons_of_mem _ hmem⟩
    | journaling req' micros =>
      obtain rfl := allowed
      cases request
      exact ⟨micros, a, List.mem_cons_self⟩
    | ended o => exact allowed.elim
    | reader => cases request

theorem ok_appends {body : List UInt8} {g : Submission} {answers : List (Σ q, Answer q)}
    (path : (sumsProtocol checks).Path (.start crates (.sums body)) answers g)
    (ok : g.Returns (.response 200 "OK\n")) :
    ∃ req, crates.requestFromSlice body = .ok req ∧
      ∃ micros a, (⟨.run (.addToJournal (req.entry micros)), a⟩ : Σ q, Answer q) ∈ answers := by
  simp only [Submission.start] at path
  split at path
  · rename_i req hparsed
    split_ifs at path
    · obtain ⟨_, rfl⟩ := path.of_final fun _ h => h
      cases ok
    · exact ⟨req, hparsed, path_appends path rfl ok⟩
  · obtain ⟨_, rfl⟩ := path.of_final fun _ h => h
    cases ok

theorem first_indexed (crates : Crates) (checks : Bool) : Indexed (first crates checks).db := by
  rcases reboot_cases crates checks (.at 0) ⟨⟨none, none, none, none, none⟩, false⟩ with
    hdb | ⟨value, hdb⟩
  · rw [first, hdb]
    exact Finset.empty_subset _
  · rw [first, hdb]
    exact Finset.empty_subset _

/-- In every run of any number of concurrent requests to any of the routes whose steps are all
safe: a POST that is answered `OK` has its entry in the journal; and when no request is being
handled, an identifier that is taken belongs to one accepted request, which has exactly one entry
if it is correct. -/
theorem acknowledged_journaled {inputs : List (ClientInput Task Env)}
    {s : Clients.State Await Answer Outcome (Service SumsDb)} {es : List SumsEvent}
    (run : (sums crates checks).machine.run (.initial (first crates checks)) inputs = some (s, es))
    (safe : Clients.Meets (sums crates checks) (Safe crates checks) []
      (.initial (first crates checks)) inputs) :
    (∀ i body, .spawned i (.sums body) ∈ es → .returned i (.response 200 "OK\n") ∈ es →
      ∃ req micros k, crates.requestFromSlice body = .ok req ∧
        s.store.db.journal k = some (crates.entryToVec (req.entry micros))) ∧
    (s.clients.keys = ∅ → ∀ id, s.store.db.processed id = true → ∃ i req,
      Accepted crates es i req ∧ req.id = id ∧ (i32Add checks req.a req.b = some req.c →
        ∃! k, ∃ entry, s.store.db.journal k = some (crates.entryToVec entry) ∧ entry.id = id)) := by
  obtain ⟨hprocessed, hjournal, hgrowing⟩ := first_empty crates checks
  obtain ⟨Γ, hghosted⟩ := Clients.invariant_under (acknowledging_preserved crates checks)
    (.initial hprocessed hjournal hgrowing (first_indexed crates checks)) safe run
  have inv := hghosted.inv
  refine ⟨fun i body hspawned hreturned => ?_, fun hidle id hid => ?_⟩
  · obtain ⟨g, htold⟩ := Clients.told_of_run (task_obeys crates checks) run hspawned
    obtain ⟨req, hparsed, micros, a, hmem⟩ := ok_appends htold.path (htold.returned _ hreturned)
    obtain ⟨k, hk⟩ := inv.appended i _ a (Clients.performed_of_mem hmem)
    exact ⟨req, micros, k, hparsed, hk⟩
  · obtain ⟨⟨i, id⟩, hmem, rfl⟩ := List.mem_map.mp ((inv.accepting.processed id).mp hid)
    obtain ⟨req, hposted, rfl⟩ := inv.posted i id hmem
    refine ⟨i, req, ⟨hmem, hposted⟩, rfl, fun hcorrect => ?_⟩
    rcases inv.settled i req ⟨hmem, hposted⟩ hcorrect with ⟨k, entry, hk, hentry⟩ | ⟨g, hg, _⟩
    · refine ⟨k, ⟨entry, hk, hentry⟩, ?_⟩
      rintro k' ⟨entry', hk', hentry'⟩
      exact inv.accepting.distinct k' k entry' entry hk' hk (hentry'.trans hentry.symm)
    · have hgone : s.clients.lookup i = none := by
        rw [Finmap.lookup_eq_none, ← Finmap.mem_keys, hidle]
        exact Finset.notMem_empty i
      have hrel := hghosted.agree i
      rw [hgone, hg] at hrel
      cases hrel

end Runs

section Examples

def calm (crates : Crates) (_ : List SumsEvent)
    (s : Clients.State Await Answer Outcome (Service SumsDb)) :
    ClientInput Task Env → Bool
  | .spawn _ => true
  | .deliver _ => true
  | .perform i env =>
    match s.clients.lookup i with
    | some (.pending _ _) => s.store.alive && env.faults.isEmpty && env.now.isSome &&
      decide (s.store.db.idx < crates.capacity)
    | _ => false
  | _ => false

theorem safe_of_calm {crates : Crates} {checks : Bool} (es : List SumsEvent)
    (s : Clients.State Await Answer Outcome (Service SumsDb)) (input : ClientInput Task Env)
    (h : calm crates es s input = true) : Safe crates checks es s input := by
  cases input with
  | spawn t => trivial
  | deliver i => trivial
  | perform i env =>
    simp only [calm] at h
    split at h
    · rename_i q k hpending
      simp only [Bool.and_eq_true, decide_eq_true_eq, List.isEmpty_iff] at h
      obtain ⟨⟨⟨halive, hfaults⟩, hnow⟩, hroom⟩ := h
      have happend : AppendSucceeds crates env s.store := by
        refine ⟨halive, ?_, hroom⟩
        rw [hfaults]
        exact fun fault hmem => by cases hmem
      simp only [Safe, hpending]
      split
      · exact happend
      · exact hnow
      · exact happend
      · rename_i heq
        cases heq
      · rename_i heq
        cases heq
      · trivial
    · cases h
  | cancel i => cases h
  | detach i => cases h
  | restart env => cases h

def onePosted : List (ClientInput Task Env) :=
  [.spawn (.sums foobarBody), .perform 0 (.at 1), .deliver 0, .perform 0 (.at 2), .deliver 0,
    .perform 0 (.at 3), .deliver 0]

def responseTo (i : ℕ) : SumsEvent → Option (ℕ × String)
  | .returned j (.response status body) => if j = i then some (status, body) else none
  | _ => none

theorem returned_of_responseTo {es : List SumsEvent} {i status : ℕ} {body : String}
    (h : (es.filterMap (responseTo i)).contains (status, body)) :
    .returned i (.response status body) ∈ es := by
  obtain ⟨e, he, hresponse⟩ := List.mem_filterMap.mp (List.contains_iff_mem.mp h)
  unfold responseTo at hresponse
  split at hresponse
  · split_ifs at hresponse with hi
    cases hi
    cases hresponse
    exact he
  · cases hresponse

theorem one_acknowledged : ∃ s es,
    (sums asciiJson true).machine.run (.initial (first asciiJson true)) onePosted =
      some (s, es) ∧
    .returned 0 (.response 200 "OK\n") ∈ es ∧
    ∃ req micros k, asciiJson.requestFromSlice foobarBody = .ok req ∧
      s.store.db.journal k = some (asciiJson.entryToVec (req.entry micros)) := by
  have hrun : ((sums asciiJson true).machine.run (.initial (first asciiJson true))
      onePosted).map (fun r => (r.2.filterMap (responseTo 0)).contains (200, "OK\n")) =
        some true := by
    decide +kernel
  have hpasses : (sums asciiJson true).passes (calm asciiJson) []
      (.initial (first asciiJson true)) onePosted = true := by
    decide +kernel
  obtain ⟨⟨s, es⟩, run, hreturned⟩ := Option.map_eq_some_iff.mp hrun
  have hok := returned_of_responseTo hreturned
  have hspawned : .spawned 0 (.sums foobarBody) ∈ es := by
    obtain ⟨mid, o₁, o₂, hstep, _, rfl⟩ := (Machine.run_cons_iff _).mp run
    cases hstep
    exact List.mem_cons_self
  exact ⟨s, es, run, hok, (acknowledged_journaled run
    (Clients.meets_of_passes safe_of_calm hpasses)).1 0 foobarBody hspawned hok⟩

def appendFails : List (ClientInput Task Env) :=
  [.spawn (.sums foobarBody), .perform 0 (.at 1), .deliver 0, .perform 0 (.at 2), .deliver 0,
    .perform 0 ⟨[some "No space left on device"], none⟩, .deliver 0, .restart (.at 3),
    .spawn (.sums foobarBody), .perform 1 (.at 4), .deliver 1]

def clientGoes : List (ClientInput Task Env) :=
  [.spawn (.sums foobarBody), .perform 0 (.at 1), .deliver 0, .cancel 0,
    .spawn (.sums foobarBody), .perform 1 (.at 2), .deliver 1]

theorem unjournaled_of_none {db : SumsDb} (h : db.sumsJournal.isNone) (k : ℕ) :
    db.journal k = none := by
  rw [SumsDb.journal, Option.isNone_iff_eq_none.mp h]
  rfl

/-- One client is told `OK` and the journal is empty; nobody's request is being handled and the
identifier of a correct sum is taken without an entry; a second try is told `Duplicate`. -/
theorem acknowledged_unjournaled :
    (∃ s es, (sums asciiJson true).machine.run (.initial (first asciiJson true)) appendFails =
        some (s, es) ∧
      .returned 0 (.response 200 "OK\n") ∈ es ∧
      .returned 1 (.response 409 "Error: Duplicate request ID.\n") ∈ es ∧
      s.clients.keys = ∅ ∧ s.store.db.processed "foobar" = true ∧
      ∀ k, s.store.db.journal k = none) ∧
    ∃ s es, (sums asciiJson true).machine.run (.initial (first asciiJson true)) clientGoes =
        some (s, es) ∧
      .returned 1 (.response 409 "Error: Duplicate request ID.\n") ∈ es ∧
      s.clients.keys = ∅ ∧ s.store.db.processed "foobar" = true ∧
      ∀ k, s.store.db.journal k = none := by
  constructor
  · have hrun : ((sums asciiJson true).machine.run (.initial (first asciiJson true))
        appendFails).map (fun r => (((r.2.filterMap (responseTo 0)).contains (200, "OK\n"),
          (r.2.filterMap (responseTo 1)).contains (409, "Error: Duplicate request ID.\n")),
          r.1.clients.keys, r.1.store.db.processed "foobar",
          r.1.store.db.sumsJournal.isNone)) = some ((true, true), ∅, true, true) := by
      decide +kernel
    obtain ⟨⟨s, es⟩, run, hvalues⟩ := Option.map_eq_some_iff.mp hrun
    simp only [Prod.mk.injEq] at hvalues
    obtain ⟨⟨hok, hduplicate⟩, hidle, hprocessed, hnone⟩ := hvalues
    exact ⟨s, es, run, returned_of_responseTo hok, returned_of_responseTo hduplicate, hidle,
      hprocessed, unjournaled_of_none hnone⟩
  · have hrun : ((sums asciiJson true).machine.run (.initial (first asciiJson true))
        clientGoes).map (fun r =>
          ((r.2.filterMap (responseTo 1)).contains (409, "Error: Duplicate request ID.\n"),
          r.1.clients.keys, r.1.store.db.processed "foobar",
          r.1.store.db.sumsJournal.isNone)) = some (true, ∅, true, true) := by
      decide +kernel
    obtain ⟨⟨s, es⟩, run, hvalues⟩ := Option.map_eq_some_iff.mp hrun
    simp only [Prod.mk.injEq] at hvalues
    obtain ⟨hduplicate, hidle, hprocessed, hnone⟩ := hvalues
    exact ⟨s, es, run, returned_of_responseTo hduplicate, hidle, hprocessed,
      unjournaled_of_none hnone⟩

end Examples

end RustExperiments.Sums
