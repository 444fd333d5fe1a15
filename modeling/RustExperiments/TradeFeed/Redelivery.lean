/- module: RustExperiments/TradeFeed/Redelivery
   digest: A message that is delivered again is stored again, unless it has no rows. -/

import RustExperiments.TradeFeed.Handling

set_option autoImplicit false
set_option relaxedAutoImplicit false

namespace RustExperiments.TradeFeed

open RustExperiments.Lib

section Completion

variable (serde : SerdeJson) (checks : Bool)

def completion (text : String) (redisConnection : Bool) (s : FeedStore) (envs : List Env) :
    Option (FeedStore × List (Σ q, Answer q)) :=
  match (handling serde checks).run ((Task.message text redisConnection).start serde, s) envs with
  | some ((.ret _, t), answers) =>
    if ∀ a ∈ answers, answeredError a = false then some (t, answers) else none
  | _ => none

theorem completes_of_completion {text : String} {redisConnection : Bool} {s t : FeedStore}
    {envs : List Env} {answers : List (Σ q, Answer q)}
    (h : completion serde checks text redisConnection s envs = some (t, answers)) :
    Completes serde checks text redisConnection s t answers := by
  unfold completion at h
  split at h
  · rename_i r t' answers' run
    split_ifs at h with hfine
    obtain ⟨rfl, rfl⟩ := Prod.mk.inj (Option.some.inj h)
    exact ⟨⟨envs, r, run⟩, hfine⟩
  · cases h

end Completion

theorem Completes.ground {serde : SerdeJson} {checks : Bool} {text : String} {redisConnection : Bool}
    {s t : FeedStore} {answers : List (Σ q, Answer q)}
    (h : Completes serde checks text redisConnection s t answers) (ground : Ground s.db)
    (few : checks = false → s.db.total + (messageRows serde text).length < 2 ^ 64) :
    Ground t.db ∧ t.db.total = s.db.total + (messageRows serde text).length := by
  rcases h.tables ground few with ⟨hnil, hdb⟩ | ⟨_, htotal, _, hground⟩
  · rw [hdb, hnil]
    exact ⟨ground, rfl⟩
  · exact ⟨hground, htotal⟩

/-- In every reachable store, handling a message a second time stores nothing, leaves the counter
and publishes nothing exactly when the message has no row to store. -/
theorem redelivery_idempotent_iff {serde : SerdeJson} {checks : Bool}
    {inputs : List (ClientInput Task Env)} {reached : Clients.State Await Answer Outcome FeedStore}
    {es : List FeedEvent} {text : String} {redisConnection redisConnection' : Bool}
    {s t : FeedStore} {answers answers' : List (Σ q, Answer q)}
    (run : (feed serde checks).machine.run (.initial .first) inputs = some (reached, es))
    (first : Completes serde checks text redisConnection reached.store s answers)
    (second : Completes serde checks text redisConnection' s t answers')
    (few : checks = false →
      (issuedIndices es).length + 2 * (messageRows serde text).length < 2 ^ 64 - 1) :
    (t.db.trades = s.db.trades ∧ t.db.total = s.db.total ∧ ∀ a ∈ answers', published a = false) ↔
      messageRows serde text = [] := by
  obtain ⟨Γ, hghosted⟩ := Clients.invariant (appending_preserved serde checks)
    (fun _ => Appending.initial) run
  have happ := hghosted.inv fun hchecks => by
    have hfew := few hchecks
    omega
  have hfits : ∀ n, n ≤ 2 * (messageRows serde text).length → checks = false →
      reached.store.db.total + n < 2 ^ 64 := by
    intro n hn hchecks
    have hfew := few hchecks
    rw [happ.total_eq]
    omega
  obtain ⟨hground, htotal⟩ := first.ground happ.ground (hfits _ (by omega))
  have hfits' : checks = false → s.db.total + (messageRows serde text).length < 2 ^ 64 := by
    intro hchecks
    have hboth := hfits _ (Nat.le_refl _) hchecks
    omega
  constructor
  · rintro ⟨_, hsame, _⟩
    have hsecond := (second.ground hground hfits').2
    rw [hsame] at hsecond
    exact List.eq_nil_of_length_eq_zero (by omega)
  · intro hnil
    obtain ⟨rfl, rfl⟩ := second.silent hnil
    exact ⟨rfl, rfl, by simp⟩

theorem completed_twice : ∃ s answers t answers',
    Completes tradeJson true tradeText true .first s answers ∧
    Completes tradeJson true tradeText true s t answers' ∧
    s.db.total = 1 ∧ t.db.total = 2 ∧ s.db.trades.lookup 2 = none ∧
    (t.db.trades.lookup 2).isSome ∧ answers'.any published := by
  have hruns : ((completion tradeJson true tradeText true .first (List.replicate 5 .fine)).bind
      fun first => (completion tradeJson true tradeText true first.1 (List.replicate 5 .fine)).map
        fun second => (first.1.db.total, second.1.db.total, first.1.db.trades.lookup 2,
          (second.1.db.trades.lookup 2).isSome, second.2.any published)) =
      some (1, 2, none, true, true) := by
    decide +kernel
  obtain ⟨⟨s, answers⟩, hfirst, hrest⟩ := Option.bind_eq_some_iff.mp hruns
  obtain ⟨⟨t, answers'⟩, hsecond, hvalues⟩ := Option.map_eq_some_iff.mp hrest
  simp only [Prod.mk.injEq] at hvalues
  exact ⟨s, answers, t, answers', completes_of_completion _ _ hfirst,
    completes_of_completion _ _ hsecond, hvalues⟩

theorem redelivered_not_idempotent : ∃ s answers t answers',
    Completes tradeJson true tradeText true .first s answers ∧
    Completes tradeJson true tradeText true s t answers' ∧
    ¬ (t.db.trades = s.db.trades ∧ t.db.total = s.db.total ∧ ∀ a ∈ answers', published a = false) := by
  obtain ⟨s, answers, t, answers', hfirst, hsecond, _⟩ := completed_twice
  refine ⟨s, answers, t, answers', hfirst, hsecond, fun h => ?_⟩
  have hnil := (redelivery_idempotent_iff (Machine.run_nil _ _) hfirst hsecond nofun).mp h
  exact absurd hnil (by decide +kernel)

/-- The second delivery of one trade stores it again under another index, moves the counter and
publishes it again. -/
theorem redelivered_stored_again : ∃ s answers t answers',
    Completes tradeJson true tradeText true .first s answers ∧
    Completes tradeJson true tradeText true s t answers' ∧
    ¬ (t.db.trades = s.db.trades) ∧ ¬ (t.db.total = s.db.total) ∧
    ¬ ∀ a ∈ answers', published a = false := by
  obtain ⟨s, answers, t, answers', hfirst, hsecond, hs, ht, hnone, hsome, hpublished⟩ :=
    completed_twice
  refine ⟨s, answers, t, answers', hfirst, hsecond, fun h => ?_, by omega, fun h => ?_⟩
  · rw [h, hnone] at hsome
    cases hsome
  · obtain ⟨a, ha, hpublish⟩ := List.any_eq_true.mp hpublished
    rw [h a ha] at hpublish
    cases hpublish

end RustExperiments.TradeFeed
