/- module: RustExperiments/AsyncRedb/Reads
   digest: What clients of the feed and of the HTTP server are told through the queue and the worker. -/

import RustExperiments.AsyncRedb.Programs
import RustExperiments.Sums.Readings
import RustExperiments.TradeFeed.Acknowledged

set_option autoImplicit false
set_option relaxedAutoImplicit false

namespace RustExperiments.AsyncRedb

open RustExperiments.Lib

section Meetings

variable {Q : Type} {A : Q → Type} {R T V : Type} {shown : R → Option V}

def met (shown : R → Option V) : ClientEvent Q A R T → Option (ℕ × (T ⊕ V))
  | .spawned i t => some (i, .inl t)
  | .returned i r => (shown r).map fun v => (i, .inr v)
  | .performed _ _ _ => none

theorem spawned_of_met {es : List (ClientEvent Q A R T)} {i : ℕ} {t : T}
    (h : (i, .inl t) ∈ es.filterMap (met shown)) : .spawned i t ∈ es := by
  obtain ⟨e, he, hmet⟩ := List.mem_filterMap.mp h
  cases e with
  | spawned j t' =>
    cases hmet
    exact he
  | returned j r =>
    obtain ⟨v, _, heq⟩ := Option.map_eq_some_iff.mp hmet
    cases heq
  | performed j q a => cases hmet

theorem returned_of_met {es : List (ClientEvent Q A R T)} {i : ℕ} {v : V}
    (h : (i, .inr v) ∈ es.filterMap (met shown)) : ∃ r, .returned i r ∈ es ∧ shown r = some v := by
  obtain ⟨e, he, hmet⟩ := List.mem_filterMap.mp h
  cases e with
  | spawned j t => cases hmet
  | returned j r =>
    obtain ⟨v', hv, heq⟩ := Option.map_eq_some_iff.mp hmet
    cases heq
    exact ⟨r, he, hv⟩
  | performed j q a => cases hmet

end Meetings

section Feed

open RustExperiments.TradeFeed

end Feed

section Server

open RustExperiments.Sums

/-- The same of the server, from a database without tables on: `OK` is the word for an entry, and a
client that comes later is shown a page of the one journal with that entry in it. -/
theorem server_faithful {crates : Crates} {checks : Bool} {queueSize : ℕ}
    {inputs₁ inputs₂ : List (ServedInput Task Env)} {es₁ es₂ : List SumsEvent}
    {mid c : Served (serverHandlers crates checks) Await Answer Outcome}
    (run₁ : ((serverPort crates checks).machine queueSize).run (.initial SumsDb.fresh) inputs₁ =
      some (mid, es₁))
    (run₂ : ((serverPort crates checks).machine queueSize).run mid inputs₂ = some (c, es₂)) :
    Faithful crates checks es₁ es₂ := by
  have hinitial : Served.Related (serverPort crates checks) (.initial SumsDb.fresh)
      (.initial ((serverPort crates checks).store .fresh true)) := Served.Related.initial _
  obtain ⟨_, _, hrun₁, hmid⟩ := hinitial.run run₁
  obtain ⟨_, _, hrun₂, _⟩ := hmid.run run₂
  exact faithful_of_runs hrun₁ hrun₂

/-- The sum of `foobarBody` as it is journaled at this time. -/
def foobarEntry : JournalEntry := ⟨"foobar", 2, 3, 5, 2⟩

def sumServed : List (ServedInput Task Env) :=
  [.restart (.at 0), .spawn (.sums foobarBody), .send 0, .receive, .handle (.at 1), .reply,
    .finish 0, .perform 0 (.at 2), .deliver 0, .send 0, .receive, .handle (.at 3), .reply, .finish 0]

def journalServed : List (ServedInput Task Env) :=
  [.spawn (.journal none), .send 1, .receive, .handle (.at 4), .reply, .finish 1]

theorem sum_then_journal : ∃ mid c es₁ es₂ log,
    ((serverPort asciiJson true).machine 1).run (.initial SumsDb.fresh) sumServed =
      some (mid, es₁) ∧
    ((serverPort asciiJson true).machine 1).run mid journalServed = some (c, es₂) ∧
    journaled es₁ = [foobarEntry] ∧ journaled es₁ <+: log ∧
    .returned 1 (.json (.journal (lastEntries defaultRequestSize log))) ∈ es₂ := by
  have hrun : (((serverPort asciiJson true).machine 1).run (.initial SumsDb.fresh)
      sumServed).bind (fun first =>
        (((serverPort asciiJson true).machine 1).run first.1 journalServed).map fun second =>
          decide (journaled first.2 = [foobarEntry] ∧
            second.2.filterMap (met some) = [(1, .inl (.journal none)),
              (1, .inr (.json (.journal [foobarEntry])))])) = some true := by
    decide +kernel
  obtain ⟨⟨mid, es₁⟩, run₁, hmap⟩ := Option.bind_eq_some_iff.mp hrun
  obtain ⟨⟨c, es₂⟩, run₂, hvalues⟩ := Option.map_eq_some_iff.mp hmap
  obtain ⟨hjournaled, hmet⟩ := of_decide_eq_true hvalues
  have hspawned : .spawned 1 (.journal none) ∈ es₂ := spawned_of_met (by rw [hmet]; simp)
  obtain ⟨r, hreturned, hr⟩ : ∃ r, .returned 1 r ∈ es₂ ∧
      some r = some (.json (.journal [foobarEntry])) := returned_of_met (by rw [hmet]; simp)
  rcases (server_faithful run₁ run₂).page 1 none r hspawned hreturned with
    rfl | ⟨log, hlog, _, rfl⟩
  · cases hr
  · exact ⟨mid, c, es₁, es₂, log, run₁, run₂, hjournaled, hlog, hreturned⟩

end Server

end RustExperiments.AsyncRedb
