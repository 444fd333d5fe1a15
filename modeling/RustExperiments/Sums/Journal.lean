/- module: RustExperiments/Sums/Journal
   digest: The journal as a log: what was appended, in order, and the reads of its last entries. -/

import RustExperiments.Sums.Acceptance

set_option autoImplicit false
set_option relaxedAutoImplicit false

namespace RustExperiments.Sums

open RustExperiments.Lib

/-- A request to the database worker, with what fails in it, or a restart of the process. -/
inductive WorkerInput where
  | request (q : DbRequest) (faults : Faults)
  | restart (env : Env)

inductive WorkerEvent where
  | answered (q : DbRequest) (answer : Answer (.run q))
  | restarted

def worker (crates : Crates) (checks : Bool) :
    Machine (Service SumsDb) WorkerInput WorkerEvent where
  step s
    | .request q faults =>
      some ((perform crates checks (.run q) ⟨faults, none⟩ s).2,
        [.answered q (perform crates checks (.run q) ⟨faults, none⟩ s).1])
    | .restart env => some (reboot crates checks env s, [.restarted])

def SumsDb.fresh : SumsDb := ⟨none, none, none, none, none⟩

def WorkerEvent.appended : WorkerEvent → Option JournalEntry
  | .answered (.addToJournal entry) (.ok _) => some entry
  | _ => none

/-- The successful appends, in order. -/
def appendLog (events : List WorkerEvent) : List JournalEntry := events.filterMap (·.appended)

@[simp] theorem appendLog_append (xs ys : List WorkerEvent) :
    appendLog (xs ++ ys) = appendLog xs ++ appendLog ys := List.filterMap_append

theorem appendLog_singleton (e : WorkerEvent) : appendLog [e] = e.appended.toList := by
  cases h : e.appended <;> simp [appendLog, h]

/-- The last `min(n, idx, 100)` entries, oldest first. -/
def lastEntries (n : ℕ) (log : List JournalEntry) : List JournalEntry :=
  log.drop (log.length - min (min n log.length) maxRequestSize)

/-- The tables of the journal hold a log. Before the first append they do not exist. -/
structure Holds (crates : Crates) (log : List JournalEntry) (db : SumsDb) : Prop where
  growing : Growing db
  idx : db.idx = log.length
  entries : ∀ k, db.journal k = log[k]?.map crates.entryToVec
  unopened : log = [] → db.sumsJournal = none ∧ db.journalMeta = none
  opened : log ≠ [] → ∃ journal journalMeta, db.sumsJournal = some journal ∧
    db.journalMeta = some journalMeta

namespace Holds

variable {crates : Crates} {checks : Bool} {log : List JournalEntry} {db db' : SumsDb}
  {s : Service SumsDb}

theorem fresh (crates : Crates) : Holds crates [] .fresh where
  growing := rfl
  idx := rfl
  entries _ := rfl
  unopened _ := ⟨rfl, rfl⟩
  opened h := absurd rfl h

theorem append (h : Holds crates log db) {entry : JournalEntry} {next : ℕ}
    (room : ((db.sumsJournal.getD ∅).insert db.idx (crates.entryToVec entry)).keys.card ≤
      crates.capacity) (advanced : u64Add checks db.idx 1 = some next) :
    Holds crates (log ++ [entry]) (db.append (crates.entryToVec entry) next) := by
  have hnext := h.growing.advanced room advanced
  exact {
    growing := h.growing.perform (.journaled entry next room advanced)
    idx := by rw [SumsDb.idx_append, hnext, h.idx, List.length_append, List.length_singleton]
    entries := fun k => by
      rw [SumsDb.journal_append, h.idx]
      rcases Nat.lt_trichotomy k log.length with hlt | rfl | hgt
      · rw [if_neg hlt.ne, h.entries, List.getElem?_append_left hlt]
      · simp
      · rw [if_neg hgt.ne', h.entries, List.getElem?_eq_none hgt.le,
          List.getElem?_eq_none (by rwa [List.length_append, List.length_singleton])]
    unopened := fun hnil => by simp at hnil
    opened := fun _ => ⟨_, _, rfl, rfl⟩ }

theorem perform (h : Holds crates log db) {q : DbRequest} {a : Answer (.run q)}
    (effect : Effect crates checks db (.run q) a db') :
    Holds crates (log ++ (WorkerEvent.answered q a).appended.toList) db' := by
  cases effect with
  | journaled entry next room advanced => exact h.append room advanced
  | failed q e =>
    have hnone : (WorkerEvent.answered q (.error e)).appended = none := by cases q <;> rfl
    rw [hnone, Option.toList_none, List.append_nil]
    exact h
  | _ =>
    refine (List.append_nil log).symm ▸ ?_
    exact ⟨h.growing, h.idx, h.entries, h.unopened, h.opened⟩

theorem restart (h : Holds crates log s.db) (env : Env) :
    Holds crates log (reboot crates checks env s).db := by
  rcases reboot_cases crates checks env s with hdb | ⟨value, hdb⟩
  · rwa [hdb]
  · rw [hdb]
    exact ⟨h.growing, h.idx, h.entries, h.unopened, h.opened⟩

end Holds

section Reading

open Session

variable {crates : Crates} {log : List JournalEntry} {db db' : SumsDb}

theorem collectJournal_step {journal : Table ℕ String} {remaining i : ℕ}
    {result : List JournalEntry} {entry : JournalEntry}
    (present : journal.lookup i = some (crates.entryToVec entry)) :
    collectJournal crates journal (remaining + 1) i result =
      (do op; collectJournal crates journal remaining (i + 1) (result ++ [entry])) := by
  rw [collectJournal, present]
  simp only [crates.entryFromSlice_toVec]

theorem collectJournal_makes {journal : Table ℕ String}
    (entries : ∀ k, journal.lookup k = log[k]?.map crates.entryToVec) {remaining i : ℕ}
    {result : List JournalEntry} (within : i + remaining ≤ log.length) :
    Makes remaining (collectJournal crates journal remaining i result) db
      (result ++ (log.drop i).take remaining) db := by
  induction remaining generalizing i result with
  | zero =>
    rw [List.take_zero, List.append_nil]
    exact makes_pure result db
  | succ remaining ih =>
    have hi : i < log.length := by omega
    have hentry : journal.lookup i = some (crates.entryToVec log[i]) := by
      rw [entries, List.getElem?_eq_getElem hi]
      rfl
    rw [collectJournal_step hentry]
    rw [Nat.add_comm remaining 1]
    refine makes_bind (makes_op db) ?_
    have hloop := @ih (i + 1) (result ++ [log[i]]) (by omega)
    rwa [List.append_assoc, List.singleton_append, ← List.take_succ_cons,
      ← List.drop_eq_getElem_cons hi, Nat.add_comm remaining 1] at hloop

theorem take_lastEntries (n : ℕ) (log : List JournalEntry) :
    (log.drop (log.length - min (min n log.length) maxRequestSize)).take
      (min (min n log.length) maxRequestSize) = lastEntries n log := by
  refine List.take_of_length_le ?_
  rw [List.length_drop]
  omega

theorem Holds.lookup_idx (h : Holds crates log db) {journalMeta : Table String ℕ}
    (hmeta : db.journalMeta = some journalMeta) :
    (journalMeta.lookup "idx").getD 0 = log.length := by
  have hidx := h.idx
  rwa [SumsDb.idx, hmeta] at hidx

theorem Holds.lookup (h : Holds crates log db) {journal : Table ℕ String}
    (hjournal : db.sumsJournal = some journal) (k : ℕ) :
    journal.lookup k = log[k]?.map crates.entryToVec := by
  have hk := h.entries k
  rwa [SumsDb.journal, hjournal] at hk

theorem getJournal_reads (h : Holds crates log db) {n : ℕ} {r : Except Halt (List JournalEntry)}
    (ends : (handleGetJournal crates n).Ends db r db') :
    Fails db r db' ∨ log ≠ [] ∧ r = .ok (lastEntries n log) := by
  rcases ends_begin_bind ends with hfails | ends
  · exact Or.inl hfails
  rcases openExisting_bind ends with hfails | ⟨journalMeta, hmeta, ends⟩
  · exact Or.inl hfails
  rcases openExisting_bind ends with hfails | ⟨journal, hjournal, ends⟩
  · exact Or.inl hfails
  rcases ends_op_bind ends with hfails | ends
  · exact Or.inl hfails
  rw [h.lookup_idx hmeta] at ends
  rcases ends_of_makes (collectJournal_makes (h.lookup hjournal) (by omega)) ends with
    hfails | ⟨hr, _⟩
  · exact Or.inl hfails
  · refine Or.inr ⟨fun hnil => ?_, ?_⟩
    · rw [(h.unopened hnil).1] at hjournal
      cases hjournal
    · rwa [List.nil_append, take_lastEntries] at hr

theorem openExisting_makes {K V : Type} (name : String) (table : Table K V) (db : SumsDb) :
    Makes 1 (openExisting name (some table)) db table db :=
  makes_bind (k := 0) (makes_op db) (makes_pure table db)

theorem getJournal_makes (h : Holds crates log db) (hne : log ≠ []) (n : ℕ) :
    Makes (1 + (1 + (1 + (1 + min (min n log.length) maxRequestSize)))) (handleGetJournal crates n)
      db (lastEntries n log) db := by
  obtain ⟨journal, journalMeta, hjournal, hmeta⟩ := h.opened hne
  refine makes_bind (makes_begin db) ?_
  rw [hmeta, hjournal]
  refine makes_bind (openExisting_makes "journal_meta" journalMeta db) ?_
  refine makes_bind (openExisting_makes "sums_journal" journal db) ?_
  refine makes_bind (makes_op db) ?_
  rw [h.lookup_idx hmeta, ← take_lastEntries]
  exact collectJournal_makes (h.lookup hjournal) (by omega)

theorem serve_getJournal {checks : Bool} {s : Service SumsDb} (h : Holds crates log s.db)
    {env : Env} {n : ℕ} {entries : List JournalEntry}
    (answered : (perform crates checks (.run (.getJournal n)) env s).1 = .ok entries) :
    log ≠ [] ∧ entries = lastEntries n log := by
  have hserve : (s.serve (handleGetJournal crates n) env.faults).1 = .ok entries := answered
  rcases Service.serve_ends (handleGetJournal crates n) env.faults s with
    ⟨v, hok, hends⟩ | ⟨message, herror, _⟩
  · rw [hserve] at hok
    cases hok
    rcases getJournal_reads h hends with ⟨_, _, hr⟩ | ⟨hne, hr⟩
    · cases hr
    · cases hr
      exact ⟨hne, rfl⟩
  · rw [hserve] at herror
    cases herror

/-- Where the database can be read the route answers with the last entries, of which there are
none before the first append. -/
theorem journalHandler_reads {checks : Bool} {s : Service SumsDb} (h : Holds crates log s.db)
    (alive : s.alive = true) {env : Env} (quiet : Quiet env.faults) (n : Option ℕ) :
    ∃ s' answers, (Proc.machine (perform crates checks)).run (journalHandler n, s) [env] =
      some ((.ret (.json (.journal (lastEntries (n.getD defaultRequestSize) log))), s'),
        answers) := by
  let q : DbRequest := .getJournal (n.getD defaultRequestSize)
  refine ⟨(perform crates checks (.run q) env s).2,
    [⟨.run q, (perform crates checks (.run q) env s).1⟩],
    ((Proc.machine (perform crates checks)).run_singleton).mpr ?_⟩
  have hstep : (Proc.machine (perform crates checks)).step (journalHandler n, s) env =
      some ((match (perform crates checks (.run q) env s).1 with
        | .ok entries => .ret (.json (.journal entries))
        | .error _ => .ret (.json (.journal [])), (perform crates checks (.run q) env s).2),
        [⟨.run q, (perform crates checks (.run q) env s).1⟩]) := rfl
  rw [hstep]
  cases hanswer : (perform crates checks (.run q) env s).1 with
  | ok entries =>
    rw [(serve_getJournal h hanswer).2]
  | error message =>
    rcases eq_or_ne log [] with rfl | hne
    · rw [lastEntries, List.drop_nil]
    · have hok := (Service.serve_makes alive
        (getJournal_makes h hne (n.getD defaultRequestSize))).1 (quiet.take _)
      have hsame : perform crates checks (.run q) env s =
        s.serve (handleGetJournal crates (n.getD defaultRequestSize)) env.faults := rfl
      rw [hsame, hok] at hanswer
      cases hanswer

end Reading

theorem holds_of_run {crates : Crates} {checks alive : Bool} {inputs : List WorkerInput}
    {s : Service SumsDb} {events : List WorkerEvent}
    (run : (worker crates checks).run ⟨.fresh, alive⟩ inputs = some (s, events)) :
    Holds crates (appendLog events) s.db := by
  refine Machine.run_invariant (worker crates checks)
    (fun _ events s => Holds crates (appendLog events) s.db) ?_ ?_ run
  · exact Holds.fresh crates
  intro _ events s input s' o _ h hstep
  rw [appendLog_append]
  cases input with
  | request q faults =>
    cases hstep
    rw [appendLog_singleton]
    exact h.perform (perform_effect crates checks (.run q) ⟨faults, none⟩ s)
  | restart env =>
    cases hstep
    rw [show appendLog [.restarted] = [] from rfl, List.append_nil]
    exact h.restart env

theorem log_split {xs ys : List WorkerEvent} {entry : JournalEntry} :
    appendLog (xs ++ .answered (.addToJournal entry) (.ok ()) :: ys) =
      appendLog xs ++ entry :: appendLog ys := by
  rw [appendLog_append]
  rfl

/-- After every sequence of requests and restarts on a fresh database, with anything failing: the
keys of the journal are those below `idx`, each with the entry that was appended after that many
successful appends; a later state has the same entries and maybe more; a failed request changes
no table; and a read returns the last entries wherever the database can be read, and nothing else
wherever it succeeds. -/
theorem faithful_log {crates : Crates} {checks alive : Bool} {inputs₁ inputs₂ : List WorkerInput}
    {mid s : Service SumsDb} {events₁ events₂ : List WorkerEvent}
    (run₁ : (worker crates checks).run ⟨.fresh, alive⟩ inputs₁ = some (mid, events₁))
    (run₂ : (worker crates checks).run mid inputs₂ = some (s, events₂)) :
    (s.db.sumsJournal.getD ∅).keys = Finset.range s.db.idx ∧
    s.db.idx = (appendLog (events₁ ++ events₂)).length ∧
    (∀ before entry after,
      events₁ ++ events₂ = before ++ .answered (.addToJournal entry) (.ok ()) :: after →
      s.db.journal (appendLog before).length = some (crates.entryToVec entry)) ∧
    (∀ k bytes, mid.db.journal k = some bytes → s.db.journal k = some bytes) ∧
    (∀ q env e, (perform crates checks (.run q) env s).1 = .error e →
      (perform crates checks (.run q) env s).2.db = s.db) ∧
    (∀ n env entries, (perform crates checks (.run (.getJournal n)) env s).1 = .ok entries →
      entries = lastEntries n (appendLog (events₁ ++ events₂))) ∧
    ∀ n env, s.alive = true → Session.Quiet env.faults → ∃ s' answers,
      (Proc.machine (perform crates checks)).run (journalHandler n, s) [env] =
        some ((.ret (.json (.journal (lastEntries (n.getD defaultRequestSize)
          (appendLog (events₁ ++ events₂))))), s'), answers) := by
  have hmid := holds_of_run run₁
  have h := holds_of_run ((worker crates checks).run_append run₁ run₂)
  refine ⟨h.growing, h.idx, ?_, ?_, ?_, ?_, ?_⟩
  · intro before entry after hsplit
    rw [h.entries, hsplit, log_split, List.getElem?_append_right (le_refl _), Nat.sub_self]
    rfl
  · intro k bytes hk
    rw [hmid.entries] at hk
    obtain ⟨entry, hentry, rfl⟩ := Option.map_eq_some_iff.mp hk
    rw [h.entries, appendLog_append,
      List.getElem?_append_left (List.getElem?_eq_some_iff.mp hentry).1, hentry]
    rfl
  · intro q env e herror
    have heffect := perform_effect crates checks (.run q) env s
    rw [herror] at heffect
    generalize (perform crates checks (.run q) env s).2.db = db at heffect
    cases heffect
    rfl
  · exact fun n env entries hok => (serve_getJournal h hok).2
  · exact fun n env halive quiet => journalHandler_reads h halive quiet n

def firstAppends : List WorkerInput :=
  [.request (.addToJournal ⟨"foo", 1, 2, 3, 7⟩) [],
    .request (.addToJournal ⟨"bar", 2, 2, 4, 8⟩) [none, some "disk full"], .restart (.at 9)]

def laterAppends : List WorkerInput :=
  [.request (.incString 1) [], .request (.addToJournal ⟨"bar", 2, 2, 4, 10⟩) []]

theorem appended_twice : ∃ mid s events₁ events₂,
    (worker asciiJson true).run ⟨.fresh, true⟩ firstAppends = some (mid, events₁) ∧
    (worker asciiJson true).run mid laterAppends = some (s, events₂) ∧
    s.db.idx = 2 ∧ (s.db.sumsJournal.getD ∅).keys = Finset.range 2 ∧
    ∃ s' answers, (Proc.machine (perform asciiJson true)).run (journalHandler (some 1), s) [.at 11] =
      some ((.ret (.json (.journal [⟨"bar", 2, 2, 4, 10⟩])), s'), answers) := by
  have hrun : ((worker asciiJson true).run ⟨.fresh, true⟩ (firstAppends ++ laterAppends)).map
      (fun r => (r.1.alive, appendLog r.2)) =
        some (true, [⟨"foo", 1, 2, 3, 7⟩, ⟨"bar", 2, 2, 4, 10⟩]) := by
    decide +kernel
  obtain ⟨⟨s, events⟩, run, heq⟩ := Option.map_eq_some_iff.mp hrun
  obtain ⟨halive, hlog⟩ := Prod.mk.inj heq
  obtain ⟨mid, events₁, events₂, run₁, run₂, rfl⟩ :=
    ((worker asciiJson true).run_append_iff).mp run
  obtain ⟨hkeys, hidx, _, _, _, _, hread⟩ := faithful_log run₁ run₂
  have htwo : s.db.idx = 2 := by rw [hidx, hlog]; rfl
  obtain ⟨s', answers, hget⟩ := hread (some 1) (.at 11) halive fun _ h => by cases h
  rw [hlog] at hget
  exact ⟨mid, s, events₁, events₂, run₁, run₂, htwo, by rw [hkeys, htwo], s', answers, hget⟩

end RustExperiments.Sums
