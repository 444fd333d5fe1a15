/- module: RustExperiments/AsyncRedb/Served
   digest: Tasks behind the queue, the worker and the replies are clients of an atomic database. -/

import RustExperiments.AsyncRedb.Port

set_option autoImplicit false
set_option relaxedAutoImplicit false

namespace RustExperiments.AsyncRedb

open RustExperiments.Lib

variable {h : Handlers} {left : (r : h.Request) → h.Env → h.Db → h.Db}
  {Q : Type} {A : Q → Type} {R T S E : Type} {sys : Clients Q A R T S E}

section Refinement

variable {port : Port h left sys} {queueSize : ℕ} {c : Served h Q A R}
  {s : Clients.State Q A R S}

namespace Served

def Outside (port : Port h left sys) : Client Q A R → Prop
  | .pending q _ => port.route q = none
  | .detached q => port.route q = none
  | .answered _ => True

/-- The client that a task in `run` is: its request is performed when the worker executes it. -/
def client (c : Served h Q A R) {q : Q} (route : Route h (A q)) (j : ℕ) (k : A q → Proc Q A R) :
    Client Q A R :=
  match c.answer j with
  | some result => .answered (k (route.ran result))
  | none => .pending q k

/-- A task of the program and a client of the atomic database. -/
def Fits (port : Port h left sys) (c : Served h Q A R) (i : ℕ) :
    Waiter Q A R → Option (Client Q A R) → Prop
  | .calling j q k, client => ∃ route, port.route q = some route ∧ c.asked[j]? = some (i, q) ∧
      c.shared.state.Live j route.request ∧ client = some (c.client route j k)
  | .elsewhere x, client => Outside port x ∧ client = some x

/-- The program and the clients of the atomic database. A message whose task is gone belongs to a
client that nobody waits for. -/
structure Related (port : Port h left sys) (c : Served h Q A R) (s : Clients.State Q A R S) :
    Prop where
  reached : Handlers.Reached left c.shared
  store : s.store = port.store c.shared.state.db (c.up && !c.shared.panicked)
  next : s.next = c.next
  length : c.asked.length = c.shared.state.next
  owner : ∀ i q, (i, q) ∈ c.asked → i < c.next
  live : ∀ i x, c.tasks.lookup i = some x → i < c.next
  tasks : ∀ i x, c.tasks.lookup i = some x → Fits port c i x (s.clients.lookup i)
  calls : ∀ j call, c.shared.state.calls.lookup j = some call →
    ∃ i q k, c.tasks.lookup i = some (.calling j q k)
  messages : ∀ j r, (j, r) ∈ c.shared.state.pending → ∃ i q route, c.asked[j]? = some (i, q) ∧
    port.route q = some route ∧ route.request = r ∧
    ((∃ k, c.tasks.lookup i = some (.calling j q k)) ∨
      c.tasks.lookup i = none ∧ s.clients.lookup i = some (.detached q))
  alone : ∀ j r j' r' i q q', (j, r) ∈ c.shared.state.pending →
    (j', r') ∈ c.shared.state.pending → c.asked[j]? = some (i, q) → c.asked[j']? = some (i, q') →
    j = j'
  fatal : ∀ j, c.fatal = some j → c.shared.panicked = true ∧ j < c.shared.state.next

theorem Related.call_unique (related : Related port c s) {i i' j : ℕ} {q q' : Q}
    {k : A q → Proc Q A R} {k' : A q' → Proc Q A R}
    (calling : c.tasks.lookup i = some (.calling j q k))
    (calling' : c.tasks.lookup i' = some (.calling j q' k')) : i = i' := by
  obtain ⟨_, _, hasked, _⟩ := related.tasks i _ calling
  obtain ⟨_, _, hasked', _⟩ := related.tasks i' _ calling'
  rw [hasked] at hasked'
  cases hasked'
  rfl

theorem Related.asked_lt (related : Related port c s) {j : ℕ} {x : ℕ × Q}
    (asked : c.asked[j]? = some x) : j < c.shared.state.next := by
  rw [← related.length]
  exact (List.getElem?_eq_some_iff.mp asked).1

theorem Related.waiting (related : Related port c s) {j : ℕ} {r : h.Request}
    (message : (j, r) ∈ c.shared.state.pending) :
    c.shared.panicked = false ∧ c.fatal = none ∧ c.shared.state.responses.lookup j = none ∧
      c.answer j = none := by
  have hsound := related.reached.sound
  have hresult := hsound.unexecuted j r message
  have hrunning : c.shared.panicked = false := by
    cases hpanicked : c.shared.panicked with
    | false => rfl
    | true =>
      rw [hsound.lost hpanicked] at message
      cases message
  have hfatal : c.fatal = none := by
    cases hfatal : c.fatal with
    | none => rfl
    | some j' =>
      have hpanicked := (related.fatal j' hfatal).1
      rw [hrunning] at hpanicked
      cases hpanicked
  refine ⟨hrunning, hfatal, ?_, ?_⟩
  · cases hresponse : c.shared.state.responses.lookup j with
    | none => rfl
    | some result => simp [Handlers.State.result, hresponse] at hresult
  · simp [answer, hresult, hfatal]

theorem client_congr {c' : Served h Q A R} {j : ℕ} (same : c'.answer j = c.answer j) {q : Q}
    (route : Route h (A q)) (k : A q → Proc Q A R) :
    c'.client route j k = c.client route j k := by
  simp only [client, same]

theorem answer_congr {c' : Served h Q A R} {j : ℕ}
    (result : c'.shared.state.result j = c.shared.state.result j) (fatal : c'.fatal = c.fatal) :
    c'.answer j = c.answer j := by
  simp only [answer, result, fatal]

theorem Related.sending (related : Related port c s) {j : ℕ} {r : h.Request}
    (sending : c.shared.state.calls.lookup j = some (.sending r)) :
    ∃ i q k route, c.tasks.lookup i = some (.calling j q k) ∧ c.asked[j]? = some (i, q) ∧
      port.route q = some route ∧ route.request = r := by
  obtain ⟨i, q, k, hcalling⟩ := related.calls j _ sending
  obtain ⟨route, hroute, hasked, hlive, _⟩ := related.tasks i _ hcalling
  refine ⟨i, q, k, route, hcalling, hasked, hroute, ?_⟩
  rcases hlive with hsending | hwaiting
  · rw [sending] at hsending
    cases hsending
    rfl
  · rw [sending] at hwaiting
    cases hwaiting

theorem Related.moved (related : Related port c s) {shared : h.Shared}
    (reached : Handlers.Reached left shared) (db : shared.state.db = c.shared.state.db)
    (panicked : shared.panicked = c.shared.panicked)
    (next : shared.state.next = c.shared.state.next)
    (calls : ∀ j call, shared.state.calls.lookup j = some call →
      ∃ call', c.shared.state.calls.lookup j = some call')
    (live : ∀ j r, c.shared.state.Live j r →
      shared.state.Live j r ∧ shared.state.result j = c.shared.state.result j)
    (pending : ∀ j r, (j, r) ∈ shared.state.pending →
      (j, r) ∈ c.shared.state.pending ∨ c.shared.state.calls.lookup j = some (.sending r)) :
    Related port { c with shared := shared } s := by
  have hmessages : ∀ j r, (j, r) ∈ shared.state.pending → ∃ i q route,
      c.asked[j]? = some (i, q) ∧ port.route q = some route ∧ route.request = r ∧
      ((∃ k, c.tasks.lookup i = some (.calling j q k)) ∨
        c.tasks.lookup i = none ∧ s.clients.lookup i = some (.detached q)) := by
    intro j r hpending
    rcases pending j r hpending with hold | hsending
    · exact related.messages j r hold
    · obtain ⟨i, q, k, route, hcalling, hasked, hroute, hrequest⟩ := related.sending hsending
      exact ⟨i, q, route, hasked, hroute, hrequest, Or.inl ⟨k, hcalling⟩⟩
  -- A task that waits in a call has no message of another call on its way.
  have hone : ∀ {i j q k j' r' q'}, c.tasks.lookup i = some (.calling j q k) →
      (j', r') ∈ shared.state.pending → c.asked[j']? = some (i, q') → j = j' := by
    intro i j q k j' r' q' hcalling hpending hasked
    obtain ⟨i', _, _, hasked', _, _, howner⟩ := hmessages j' r' hpending
    rw [hasked] at hasked'
    cases hasked'
    rcases howner with ⟨k', hcalling'⟩ | ⟨hnone, _⟩
    · rw [hcalling] at hcalling'
      cases hcalling'
      rfl
    · rw [hcalling] at hnone
      cases hnone
  refine ⟨reached, ?_, related.next, ?_, related.owner, related.live, ?_, ?_, hmessages, ?_, ?_⟩
  · rw [related.store]
    simp only [db, panicked]
  · rw [related.length]
    exact next.symm
  · intro i x hx
    have hfits := related.tasks i x hx
    cases x with
    | elsewhere x => exact hfits
    | calling j q k =>
      obtain ⟨route, hroute, hasked, hlive, hclient⟩ := hfits
      obtain ⟨hlive', hresult⟩ := live j _ hlive
      have hanswer : Served.answer { c with shared := shared } j = c.answer j :=
        answer_congr hresult rfl
      exact ⟨route, hroute, hasked, hlive', by rw [hclient, client_congr hanswer]⟩
  · intro j call hcall
    obtain ⟨call', hcall'⟩ := calls j call hcall
    exact related.calls j call' hcall'
  · intro j r j' r' i q q' hpending hpending' hasked hasked'
    rcases pending j r hpending with hold | hsending
    · rcases pending j' r' hpending' with hold' | hsending'
      · exact related.alone j r j' r' i q q' hold hold' hasked hasked'
      · obtain ⟨i', _, _, _, hcalling, hasked'', _⟩ := related.sending hsending'
        rw [hasked'] at hasked''
        cases hasked''
        exact (hone hcalling hpending hasked).symm
    · obtain ⟨i', _, _, _, hcalling, hasked'', _⟩ := related.sending hsending
      rw [hasked] at hasked''
      cases hasked''
      exact hone hcalling hpending' hasked'
  · intro j hfatal
    simp only [panicked, next]
    exact related.fatal j hfatal

structure Executed (port : Port h left sys) (c d : Served h Q A R) (j i : ℕ) (q : Q)
    (route : Route h (A q)) (result : Option (Except String h.Any)) : Prop where
  same : d = { c with shared := d.shared, fatal := d.fatal }
  reached : Handlers.Reached left d.shared
  next : d.shared.state.next = c.shared.state.next
  calls : d.shared.state.calls = c.shared.state.calls
  pending : ∀ j' r, (j', r) ∈ d.shared.state.pending → (j', r) ∈ c.shared.state.pending ∧ j' ≠ j
  fatal : ∀ j', d.fatal = some j' → d.shared.panicked = true ∧ j' = j
  others : ∀ j', j' ≠ j → d.answer j' = c.answer j'
  answer : d.answer j = some result
  asked : c.asked[j]? = some (i, q)
  routed : port.route q = some route

/-- The client of the request is the one that sees the difference, if it still waits. -/
theorem Related.executed (related : Related port c s) {d : Served h Q A R} {j i : ℕ} {q : Q}
    {route : Route h (A q)} {result : Option (Except String h.Any)} {r : h.Request}
    (message : (j, r) ∈ c.shared.state.pending) (executed : Executed port c d j i q route result)
    {clients : Table ℕ (Client Q A R)}
    (others : ∀ i', i' ≠ i → clients.lookup i' = s.clients.lookup i')
    (mine : ∀ k, c.tasks.lookup i = some (.calling j q k) →
      clients.lookup i = some (.answered (k (route.ran result)))) :
    Related port d ⟨port.store d.shared.state.db (d.up && !d.shared.panicked), clients, s.next⟩ := by
  obtain ⟨hsame, hreached, hnext, hcalls, hpending, hfatal, hothers, hanswer, hasked, hroute⟩ :=
    executed
  have htasks : d.tasks = c.tasks := by rw [hsame]
  have hasked' : d.asked = c.asked := by rw [hsame]
  have hnext' : d.next = c.next := by rw [hsame]
  -- Who waits in this call is the task that made it.
  have howner : ∀ {i' q' k}, c.tasks.lookup i' = some (.calling j q' k) → i' = i := by
    intro i' q' k hcalling
    obtain ⟨_, _, hasked'', _⟩ := related.tasks i' _ hcalling
    rw [hasked] at hasked''
    cases hasked''
    rfl
  have hlone : ∀ {i' x}, c.tasks.lookup i' = some x → i' = i → ∃ k, x = .calling j q k := by
    rintro i' x hx rfl
    obtain ⟨i₀, q₀, _, hasked₀, _, _, hcase⟩ := related.messages j r message
    rw [hasked] at hasked₀
    cases hasked₀
    rcases hcase with ⟨k, hcalling⟩ | ⟨hnone, _⟩
    · rw [hx] at hcalling
      cases hcalling
      exact ⟨k, rfl⟩
    · rw [hx] at hnone
      cases hnone
  refine ⟨hreached, rfl, ?_, ?_, ?_, ?_, ?_, ?_, ?_, ?_, ?_⟩
  · rw [hnext']
    exact related.next
  · rw [hasked', hnext]
    exact related.length
  · rw [hasked', hnext']
    exact related.owner
  · rw [htasks, hnext']
    exact related.live
  · rw [htasks]
    intro i' x hx
    by_cases hi : i' = i
    · obtain ⟨k, rfl⟩ := hlone hx hi
      subst hi
      obtain ⟨route', hroute', _, hlive, _⟩ := related.tasks i' _ hx
      rw [hroute] at hroute'
      cases hroute'
      refine ⟨route, hroute, by rw [hasked']; exact hasked, ?_, ?_⟩
      · simpa only [Handlers.State.Live, hcalls] using hlive
      · rw [mine k hx, client, hanswer]
    · rw [others i' hi]
      have hfits := related.tasks i' x hx
      cases x with
      | elsewhere x => exact hfits
      | calling j' q' k =>
        have hj : j' ≠ j := by
          rintro rfl
          exact hi (howner hx)
        obtain ⟨route', hroute', hasked₁, hlive, hclient⟩ := hfits
        refine ⟨route', hroute', by rw [hasked']; exact hasked₁, ?_, ?_⟩
        · simpa only [Handlers.State.Live, hcalls] using hlive
        · rw [hclient, client_congr (hothers j' hj)]
  · rw [hcalls, htasks]
    exact related.calls
  · intro j' r' hmessage
    obtain ⟨hmessage', hj⟩ := hpending j' r' hmessage
    obtain ⟨i', q', route', hasked₁, hroute', hrequest, hcase⟩ := related.messages j' r' hmessage'
    rw [hasked', htasks]
    refine ⟨i', q', route', hasked₁, hroute', hrequest, ?_⟩
    rcases hcase with hcalling | ⟨hnone, hdetached⟩
    · exact Or.inl hcalling
    · have hi : i' ≠ i := by
        rintro rfl
        exact hj (related.alone j' r' j r i' q' q hmessage' message hasked₁ hasked)
      exact Or.inr ⟨hnone, by rw [others i' hi]; exact hdetached⟩
  · intro j₁ r₁ j₂ r₂ i' q₁ q₂ h₁ h₂
    rw [hasked']
    exact related.alone j₁ r₁ j₂ r₂ i' q₁ q₂ (hpending _ _ h₁).1 (hpending _ _ h₂).1
  · intro j' hj'
    obtain ⟨hpanicked, rfl⟩ := hfatal j' hj'
    rw [hnext]
    exact ⟨hpanicked, related.asked_lt hasked⟩

theorem Related.perform (related : Related port c s) (up : c.up = true) {d : Served h Q A R}
    {j i : ℕ} {q : Q} {route : Route h (A q)} {result : Option (Except String h.Any)}
    {r : h.Request} {e : E} (message : (j, r) ∈ c.shared.state.pending)
    (executed : Executed port c d j i q route result)
    (perform : sys.perform q e (port.store c.shared.state.db true) =
      (route.ran result, port.store d.shared.state.db (d.up && !d.shared.panicked))) :
    ∃ s', sys.machine.step s (.perform i e) = some (s', [.performed i q (route.ran result)]) ∧
      Related port d s' := by
  obtain ⟨hrunning, _, _, hanswer⟩ := related.waiting message
  have hstore : s.store = port.store c.shared.state.db true := by
    rw [related.store, up, hrunning]
    rfl
  obtain ⟨i', q', _, hasked, _, _, hcase⟩ := related.messages j r message
  rw [executed.asked] at hasked
  cases hasked
  rcases hcase with ⟨k, hcalling⟩ | ⟨hnone, hdetached⟩
  · have hpending : s.clients.lookup i = some (.pending q k) := by
      obtain ⟨route', _, _, _, hclient⟩ := related.tasks i _ hcalling
      rw [hclient, client, hanswer]
    have hothers : ∀ i', i' ≠ i →
        (s.clients.insert i (.answered (k (route.ran result)))).lookup i' =
          s.clients.lookup i' := by
      intro i' hi
      simp [hi]
    refine ⟨_, ?_, related.executed message executed hothers fun k' hcalling' => ?_⟩
    · simp only [Clients.machine, hpending, hstore, perform]
    · rw [hcalling] at hcalling'
      cases hcalling'
      simp
  · have hothers : ∀ i', i' ≠ i → (s.clients.erase i).lookup i' = s.clients.lookup i' := by
      intro i' hi
      simp [hi]
    refine ⟨_, ?_, related.executed message executed hothers fun k hcalling => ?_⟩
    · simp only [Clients.machine, hdetached, hstore, perform]
    · rw [hnone] at hcalling
      cases hcalling

theorem Related.leave (related : Related port c s) {i j : ℕ} {q : Q} {k : A q → Proc Q A R}
    (calling : c.tasks.lookup i = some (.calling j q k)) {shared : h.Shared}
    (reached : Handlers.Reached left shared)
    (same : shared = ⟨c.shared.state.without j, c.shared.panicked⟩)
    {clients : Table ℕ (Client Q A R)}
    (others : ∀ i', i' ≠ i → clients.lookup i' = s.clients.lookup i')
    (mine : ∀ r, (j, r) ∈ c.shared.state.pending → clients.lookup i = some (.detached q)) :
    Related port { c.without i with shared := shared } { s with clients := clients } := by
  subst same
  obtain ⟨_, _, hasked, _⟩ := related.tasks i _ calling
  have htask : ∀ {i' x}, (c.tasks.erase i).lookup i' = some x →
      i' ≠ i ∧ c.tasks.lookup i' = some x := by
    intro i' x hx
    rw [Table.lookup_erase_ite] at hx
    split_ifs at hx with hi
    exact ⟨hi, hx⟩
  have hcalling : ∀ {i' j' q' k'}, c.tasks.lookup i' = some (.calling j' q' k') → j' ≠ j →
      (c.tasks.erase i).lookup i' = some (.calling j' q' k') := by
    intro i' j' q' k' hcalling hj
    have hi : i' ≠ i := by
      rintro rfl
      rw [calling] at hcalling
      cases hcalling
      exact hj rfl
    rw [Table.lookup_erase_ite, if_neg hi]
    exact hcalling
  refine ⟨reached, related.store, related.next, related.length, related.owner,
    fun i' x hx => related.live i' x (htask hx).2, ?_, ?_, ?_, related.alone, related.fatal⟩
  · intro i' x hx
    obtain ⟨hi, hx'⟩ := htask hx
    have hfits := related.tasks i' x hx'
    simp only [others i' hi]
    cases x with
    | elsewhere x => exact hfits
    | calling j' q' k' =>
      have hj : j' ≠ j := by
        rintro rfl
        exact hi (related.call_unique hx' calling)
      obtain ⟨route, hroute, hasked', hlive, hclient⟩ := hfits
      have hanswer : Served.answer
          { c.without i with shared := ⟨c.shared.state.without j, c.shared.panicked⟩ } j' =
            c.answer j' :=
        answer_congr (Handlers.result_without hj) rfl
      exact ⟨route, hroute, hasked', Handlers.live_without hj hlive,
        by rw [hclient, client_congr hanswer]⟩
  · intro j' call hcall
    simp only [Handlers.State.without, Table.lookup_erase_ite] at hcall
    split_ifs at hcall with hj
    obtain ⟨i', q', k', hcalling'⟩ := related.calls j' call hcall
    exact ⟨i', q', k', hcalling hcalling' hj⟩
  · intro j' r hmessage
    obtain ⟨i', q', route, hasked', hroute, hrequest, hcase⟩ := related.messages j' r hmessage
    refine ⟨i', q', route, hasked', hroute, hrequest, ?_⟩
    by_cases hj : j' = j
    · subst hj
      rw [hasked] at hasked'
      cases hasked'
      exact Or.inr ⟨by simp [without], mine r hmessage⟩
    · rcases hcase with ⟨k', hcalling'⟩ | ⟨hnone, hdetached⟩
      · exact Or.inl ⟨k', hcalling hcalling' hj⟩
      · have hi : i' ≠ i := by
          rintro rfl
          rw [calling] at hnone
          cases hnone
        exact Or.inr ⟨by simp [without, hnone], by simp only [others i' hi]; exact hdetached⟩

theorem Related.elsewhere (related : Related port c s) {i : ℕ} (lt : i < c.next)
    (idle : ∀ j q k, c.tasks.lookup i ≠ some (.calling j q k))
    (absent : c.tasks.lookup i = none → s.clients.lookup i = none)
    {tasks : Table ℕ (Waiter Q A R)} {clients : Table ℕ (Client Q A R)}
    (others : ∀ i', i' ≠ i → tasks.lookup i' = c.tasks.lookup i' ∧
      clients.lookup i' = s.clients.lookup i')
    (mine : ∀ x, tasks.lookup i = some x →
      ∃ client, x = .elsewhere client ∧ Outside port client ∧ clients.lookup i = some client) :
    Related port { c with tasks := tasks } { s with clients := clients } := by
  refine ⟨related.reached, related.store, related.next, related.length, related.owner, ?_, ?_, ?_,
    ?_, related.alone, related.fatal⟩
  · intro i' x hx
    by_cases hi : i' = i
    · exact hi ▸ lt
    · simp only [(others i' hi).1] at hx
      exact related.live i' x hx
  · intro i' x hx
    by_cases hi : i' = i
    · subst hi
      obtain ⟨client, rfl, houtside, hclient⟩ := mine x hx
      exact ⟨houtside, hclient⟩
    · simp only [(others i' hi).1] at hx
      simp only [(others i' hi).2]
      exact related.tasks i' x hx
  · intro j call hcall
    obtain ⟨i', q, k, hcalling⟩ := related.calls j call hcall
    have hi : i' ≠ i := by
      rintro rfl
      exact idle _ _ _ hcalling
    exact ⟨i', q, k, by simp only [(others i' hi).1]; exact hcalling⟩
  · intro j r hmessage
    obtain ⟨i', q, route, hasked, hroute, hrequest, hcase⟩ := related.messages j r hmessage
    have hi : i' ≠ i := by
      rintro rfl
      rcases hcase with ⟨k, hcalling⟩ | ⟨hnone, hdetached⟩
      · exact idle _ _ _ hcalling
      · rw [absent hnone] at hdetached
        cases hdetached
    refine ⟨i', q, route, hasked, hroute, hrequest, ?_⟩
    simp only [(others i' hi).1, (others i' hi).2]
    exact hcase

theorem Related.call (related : Related port c s) {i : ℕ} (lt : i < c.next)
    (absent : c.tasks.lookup i = none) (gone : s.clients.lookup i = none) {q : Q}
    {route : Route h (A q)} (routed : port.route q = some route) (k : A q → Proc Q A R)
    {shared : h.Shared} {o : List h.Notice}
    (step : (h.panicking left queueSize).step c.shared (.call route.request) = some (shared, o)) :
    Related port
      { c with
        shared := shared
        tasks := c.tasks.insert i (.calling c.shared.state.next q k)
        asked := c.asked ++ [(i, q)] }
      { s with clients := s.clients.insert i (.pending q k) } := by
  have hreached := related.reached.step step
  rw [Handlers.panicking_call] at step
  cases step
  have hasked : ∀ {j : ℕ} {x : ℕ × Q}, c.asked[j]? = some x →
      (c.asked ++ [(i, q)])[j]? = some x := by
    intro j x hx
    rw [List.getElem?_append_left (List.getElem?_eq_some_iff.mp hx).1]
    exact hx
  have hold : ∀ {j : ℕ} {r : h.Request} {x : ℕ × Q}, (j, r) ∈ c.shared.state.pending →
      (c.asked ++ [(i, q)])[j]? = some x → c.asked[j]? = some x := by
    intro j r x hmessage hx
    obtain ⟨_, _, _, hasked', _⟩ := related.messages j r hmessage
    rwa [List.getElem?_append_left (List.getElem?_eq_some_iff.mp hasked').1] at hx
  have hother : ∀ {i' x}, c.tasks.lookup i' = some x → i' ≠ i := by
    rintro i' x hx rfl
    rw [absent] at hx
    cases hx
  refine ⟨hreached, related.store, related.next, ?_, ?_, ?_, ?_, ?_, ?_, ?_, ?_⟩
  · simp [related.length]
  · intro i' q' hmem
    rcases List.mem_append.mp hmem with hold | hnew
    · exact related.owner i' q' hold
    · cases List.mem_singleton.mp hnew
      exact lt
  · intro i' x hx
    rw [Table.lookup_insert_ite] at hx
    split_ifs at hx with hi
    · exact hi ▸ lt
    · exact related.live i' x hx
  · intro i' x hx
    rw [Table.lookup_insert_ite] at hx
    simp only [Table.lookup_insert_ite]
    split_ifs at hx ⊢ with hi
    · cases hx
      subst hi
      have hunsent := (hreached.sound.unsent c.shared.state.next route.request (by simp)).1
      have hfatal : c.fatal ≠ some c.shared.state.next := fun hfatal =>
        Nat.lt_irrefl _ (related.fatal _ hfatal).2
      refine ⟨route, routed, ?_, Or.inl (by simp), ?_⟩
      · simp [← related.length]
      · simp only [client, answer, hunsent, if_neg hfatal]
    · have hfits := related.tasks i' x hx
      cases x with
      | elsewhere x => exact hfits
      | calling j q' k' =>
        obtain ⟨route', hroute, hasked', hlive, hclient⟩ := hfits
        have hj : j ≠ c.shared.state.next := Nat.ne_of_lt (related.asked_lt hasked')
        refine ⟨route', hroute, hasked hasked', ?_, hclient⟩
        simpa [Handlers.State.Live, hj] using hlive
  · intro j call hcall
    simp only [Table.lookup_insert_ite] at hcall ⊢
    split_ifs at hcall with hj
    · exact ⟨i, q, k, by simp [hj]⟩
    · obtain ⟨i', q', k', hcalling⟩ := related.calls j call hcall
      exact ⟨i', q', k', by rw [if_neg (hother hcalling)]; exact hcalling⟩
  · intro j r hmessage
    obtain ⟨i', q', route', hasked', hroute, hrequest, hcase⟩ := related.messages j r hmessage
    refine ⟨i', q', route', hasked hasked', hroute, hrequest, ?_⟩
    simp only [Table.lookup_insert_ite]
    rcases hcase with ⟨k', hcalling⟩ | ⟨hnone, hdetached⟩
    · exact Or.inl ⟨k', by rw [if_neg (hother hcalling)]; exact hcalling⟩
    · have hi : i' ≠ i := by
        rintro rfl
        rw [gone] at hdetached
        cases hdetached
      rw [if_neg hi, if_neg hi]
      exact Or.inr ⟨hnone, hdetached⟩
  · intro j r j' r' i' q₁ q₂ hmessage hmessage' hasked₁ hasked₂
    exact related.alone j r j' r' i' q₁ q₂ hmessage hmessage' (hold hmessage hasked₁)
      (hold hmessage' hasked₂)
  · intro j hfatal
    obtain ⟨hpanicked, hj⟩ := related.fatal j hfatal
    exact ⟨hpanicked, Nat.lt_succ_of_lt hj⟩

theorem Related.place (related : Related port c s) {i : ℕ} (lt : i < c.next)
    (absent : c.tasks.lookup i = none) (gone : s.clients.lookup i = none) {p : Proc Q A R}
    {d : Served h Q A R} {o : List (ClientEvent Q A R T)}
    (placed : port.place queueSize c i p = some (d, o)) :
    o = (Clients.place s.clients i p).2 ∧
      Related port d ⟨s.store, (Clients.place (T := T) s.clients i p).1, s.next⟩ := by
  have hidle : ∀ j q k, c.tasks.lookup i ≠ some (.calling j q k) := by
    intro j q k hcalling
    rw [absent] at hcalling
    cases hcalling
  cases p with
  | ret r =>
    cases placed
    refine ⟨rfl, related.elsewhere lt hidle (fun _ => gone) (fun i' hi => ?_) fun x hx => ?_⟩
    · simp [Clients.place, hi]
    · rw [absent] at hx
      cases hx
  | await q k =>
    cases hroute : port.route q with
    | some route =>
      simp only [Port.place, hroute, Option.map_eq_some_iff] at placed
      obtain ⟨⟨shared, o'⟩, hstep, heq⟩ := placed
      cases heq
      exact ⟨rfl, related.call lt absent gone hroute k hstep⟩
    | none =>
      simp only [Port.place, hroute] at placed
      cases placed
      refine ⟨rfl, related.elsewhere lt hidle (fun _ => gone) (fun i' hi => ?_) fun x hx => ?_⟩
      · simp [Clients.place, hi]
      · rw [Table.lookup_insert_ite, if_pos rfl] at hx
        cases hx
        exact ⟨_, rfl, hroute, by simp [Clients.place]⟩

theorem Related.spawn (related : Related port c s) {t : T} {d : Served h Q A R}
    {o : List (ClientEvent Q A R T)}
    (step : port.serve queueSize c (.spawn t) = some (d, o)) :
    ∃ s', sys.machine.step s (.spawn t) = some (s', o) ∧ Related port d s' := by
  simp only [Port.serve, Option.map_eq_some_iff] at step
  obtain ⟨⟨d, o⟩, hplaced, heq⟩ := step
  cases heq
  have habsent : c.tasks.lookup c.next = none := by
    cases hlookup : c.tasks.lookup c.next with
    | none => rfl
    | some x => exact absurd (related.live _ x hlookup) (Nat.lt_irrefl _)
  -- The number is taken, and nobody has it yet.
  have hreserved : Related port { c with next := c.next + 1 }
      ⟨s.store, s.clients.erase c.next, s.next + 1⟩ := by
    have howner := related.owner
    refine ⟨related.reached, related.store, congrArg Nat.succ related.next, related.length,
      fun i q hmem => Nat.lt_succ_of_lt (howner i q hmem),
      fun i x hx => Nat.lt_succ_of_lt (related.live i x hx), ?_, related.calls, ?_, related.alone,
      related.fatal⟩
    · intro i x hx
      have hi : i ≠ c.next := Nat.ne_of_lt (related.live i x hx)
      simp only [Table.lookup_erase_ite, if_neg hi]
      exact related.tasks i x hx
    · intro j r hmessage
      obtain ⟨i, q, route, hasked, hroute, hrequest, hcase⟩ := related.messages j r hmessage
      have hi : i ≠ c.next := Nat.ne_of_lt (howner i q (List.mem_of_getElem? hasked))
      refine ⟨i, q, route, hasked, hroute, hrequest, ?_⟩
      simp only [Table.lookup_erase_ite, if_neg hi]
      exact hcase
  obtain ⟨rfl, hrelated⟩ := hreserved.place (Nat.lt_succ_self _) habsent (by simp) hplaced
  have hplace : Clients.place (T := T) (s.clients.erase c.next) c.next (sys.start t) =
      Clients.place s.clients s.next (sys.start t) := by
    rw [related.next]
    exact Clients.place_congr (fun i hi => by simp [hi]) _
  rw [hplace] at hrelated ⊢
  refine ⟨_, ?_, hrelated⟩
  simp only [Clients.machine, related.next]

theorem Related.resume (related : Related port c s) {i j : ℕ} {q : Q} {k : A q → Proc Q A R}
    (calling : c.tasks.lookup i = some (.calling j q k)) {shared : h.Shared}
    (reached : Handlers.Reached left shared)
    (same : shared = ⟨c.shared.state.without j, c.shared.panicked⟩)
    (unsent : ∀ r, (j, r) ∉ c.shared.state.pending) {result : Option (Except String h.Any)}
    (told : c.answer j = some result ∨
      c.answer j = none ∧ c.shared.panicked = true ∧ result = none)
    {d : Served h Q A R} {o : List (ClientEvent Q A R T)}
    (resumed : port.resume queueSize c i j q k shared result = some (d, o)) :
    ∃ inputs s', sys.machine.run s inputs = some (s', o) ∧ Related port d s' := by
  obtain ⟨route, hroute, _, _, hclient⟩ := related.tasks i _ calling
  simp only [Port.resume, hroute, Option.map_eq_some_iff] at resumed
  obtain ⟨⟨d, o⟩, hplaced, heq⟩ := resumed
  cases heq
  have herased : ∀ i', i' ≠ i → (s.clients.erase i).lookup i' = s.clients.lookup i' := by
    intro i' hi
    simp [hi]
  have hleft := related.leave calling reached same herased fun r hmessage =>
    absurd hmessage (unsent r)
  obtain ⟨rfl, hrelated⟩ := hleft.place (related.live i _ calling) (by simp [without]) (by simp)
    hplaced
  have hplace : ∀ {clients : Table ℕ (Client Q A R)},
      (∀ i', i' ≠ i → clients.lookup i' = s.clients.lookup i') →
      Clients.place (T := T) (s.clients.erase i) i (k (route.ran result)) =
        Clients.place clients i (k (route.ran result)) := by
    intro clients hothers
    exact Clients.place_congr (fun i' hi => by simp [hi, hothers i' hi]) _
  rcases told with htold | ⟨htold, hpanicked, rfl⟩
  · have hanswered : s.clients.lookup i = some (.answered (k (route.ran result))) := by
      rw [hclient, client, htold]
    rw [hplace fun _ _ => rfl] at hrelated ⊢
    refine ⟨[.deliver i], _, ?_, hrelated⟩
    rw [Machine.run_singleton]
    simp only [Clients.machine, hanswered, htold, Option.isSome_some, if_true, List.nil_append]
  · have hpending : s.clients.lookup i = some (.pending q k) := by
      rw [hclient, client, htold]
    have hstore : s.store = port.store c.shared.state.db false := by
      rw [related.store, hpanicked]
      simp
    have hothers : ∀ i', i' ≠ i →
        (s.clients.insert i (.answered (k (route.ran none)))).lookup i' = s.clients.lookup i' := by
      intro i' hi
      simp [hi]
    have hperform : sys.machine.step s (.perform i port.quiet) =
        some (⟨s.store, s.clients.insert i (.answered (k (route.ran none))), s.next⟩,
          [.performed i q (route.ran none)]) := by
      simp only [Clients.machine, hpending, hstore, port.dead port.quiet _ hroute]
    have hdeliver : ∀ clients : Table ℕ (Client Q A R),
        clients.lookup i = some (.answered (k (route.ran none))) →
        sys.machine.step ⟨s.store, clients, s.next⟩ (.deliver i) =
          some (⟨s.store, (Clients.place (T := T) clients i (k (route.ran none))).1, s.next⟩,
            (Clients.place clients i (k (route.ran none))).2) := by
      intro clients hlookup
      simp only [Clients.machine, hlookup]
    rw [hplace hothers] at hrelated ⊢
    refine ⟨[.perform i port.quiet, .deliver i], _, (Machine.run_cons_iff _).mpr
      ⟨_, _, _, hperform, (Machine.run_singleton _).mpr (hdeliver _ (by simp)), ?_⟩, hrelated⟩
    simp [htold]

theorem Related.receive (related : Related port c s) {shared : h.Shared} {o : List h.Notice}
    (step : (h.panicking left queueSize).step c.shared .receive = some (shared, o)) :
    Related port { c with shared := shared } s := by
  have hreached := related.reached.step step
  obtain ⟨i, r, queue, hworker, hqueue, rfl⟩ := Handlers.panicking_receive step
  refine related.moved hreached rfl rfl rfl (fun j call hcall => ⟨call, hcall⟩)
    (fun j r' hlive => ⟨hlive, ?_⟩) fun j r' hmessage => Or.inl ?_
  · simp only [Handlers.State.result, hworker]
  · rw [Handlers.State.pending, hworker, hqueue]
    exact hmessage

theorem Related.reply (related : Related port c s) {shared : h.Shared} {o : List h.Notice}
    (step : (h.panicking left queueSize).step c.shared .reply = some (shared, o)) :
    Related port { c with shared := shared } s := by
  have hreached := related.reached.step step
  obtain ⟨i, result, hworker, rfl⟩ := Handlers.panicking_reply step
  refine related.moved hreached rfl rfl rfl (fun j call hcall => ⟨call, hcall⟩)
    (fun j r hlive => ⟨hlive, ?_⟩) fun j r hmessage => Or.inl ?_
  · exact related.reached.sound.result_reply hworker hlive
  · rw [Handlers.State.pending, hworker]
    exact hmessage

theorem Related.send (related : Related port c s) {i : ℕ} {d : Served h Q A R}
    {o : List (ClientEvent Q A R T)}
    (step : port.serve queueSize c (.send i) = some (d, o)) :
    ∃ inputs s', sys.machine.run s inputs = some (s', o) ∧ Related port d s' := by
  simp only [Port.serve] at step
  split at step
  · rename_i j q k hcalling
    split at step
    · rename_i shared notices hshared
      have hreached := related.reached.step hshared
      obtain ⟨r, hsending, ⟨hrunning, rfl⟩ | ⟨hpanicked, rfl⟩⟩ := Handlers.panicking_send hshared
      · simp only [hrunning, Bool.false_eq_true, if_false] at step
        cases step
        refine ⟨[], s, rfl, related.moved hreached rfl hrunning.symm rfl (fun j' call hcall => ?_)
          (fun j' r' hlive => ⟨?_, rfl⟩) fun j' r' hmessage => ?_⟩
        · rw [Table.lookup_insert_ite] at hcall
          split_ifs at hcall with hj
          · exact ⟨_, hj ▸ hsending⟩
          · exact ⟨call, hcall⟩
        · simp only [Handlers.State.Live, Table.lookup_insert_ite]
          split_ifs with hj
          · subst hj
            rcases hlive with hsending' | hwaiting
            · rw [hsending] at hsending'
              cases hsending'
              exact Or.inr rfl
            · rw [hsending] at hwaiting
              cases hwaiting
          · exact hlive
        · rw [Handlers.State.pending, ← List.append_assoc] at hmessage
          rcases List.mem_append.mp hmessage with hold | hnew
          · exact Or.inl hold
          · cases List.mem_singleton.mp hnew
            exact Or.inr hsending
      · simp only [hpanicked, if_true] at step
        refine related.resume hcalling hreached (by rw [hpanicked]) ?_ ?_ step
        · rw [related.reached.sound.lost hpanicked]
          simp
        · have hresult := (related.reached.sound.unsent j r hsending).1
          by_cases hfatal : c.fatal = some j
          · exact Or.inl (by simp only [answer, hresult, if_pos hfatal])
          · exact Or.inr ⟨by simp only [answer, hresult, if_neg hfatal], hpanicked, rfl⟩
    · cases step
  · cases step

theorem Related.finish (related : Related port c s) {i : ℕ} {d : Served h Q A R}
    {o : List (ClientEvent Q A R T)}
    (step : port.serve queueSize c (.finish i) = some (d, o)) :
    ∃ inputs s', sys.machine.run s inputs = some (s', o) ∧ Related port d s' := by
  simp only [Port.serve] at step
  split at step
  · rename_i j q k hcalling
    split at step
    · rename_i shared notices hshared
      have hreached := related.reached.step hshared
      have hsound := related.reached.sound
      obtain ⟨hsame, hresponse | ⟨hpanicked, hsilent⟩⟩ := Handlers.panicking_finish hshared
      · obtain ⟨result, hresult⟩ := Option.isSome_iff_exists.mp hresponse
        have hhas : c.shared.state.result j = some result := by
          simp only [Handlers.State.result, hresult]
        refine related.resume hcalling hreached hsame (fun r hmessage => ?_) (Or.inl ?_) step
        · rw [hsound.unexecuted j r hmessage] at hhas
          cases hhas
        · simp only [answer, hhas, hresult]
      · have hnone : c.shared.state.result j = none := by
          simp only [Handlers.State.result, hsilent, (hsound.ended hpanicked).1]
        refine related.resume hcalling hreached hsame ?_ ?_ step
        · rw [hsound.lost hpanicked]
          simp
        · rw [hsilent]
          by_cases hfatal : c.fatal = some j
          · exact Or.inl (by simp only [answer, hnone, if_pos hfatal])
          · exact Or.inr ⟨by simp only [answer, hnone, if_neg hfatal], hpanicked, rfl⟩
    · cases step
  · cases step

theorem Related.returns (related : Related port c s) (up : c.up = true) {i j : ℕ} {q : Q}
    {route : Route h (A q)} {e : E} {a : Except String (h.El (h.Response route.request))}
    {db : h.Db} {shared : h.Shared} (taken : c.shared.state.worker = .handling j route.request)
    (asked : c.asked[j]? = some (i, q)) (routed : port.route q = some route)
    (handled : h.handle route.request (port.env e) c.shared.state.db = some (a, db))
    (reached : Handlers.Reached left shared)
    (same : shared = ⟨{ c.shared.state with
      db := db
      worker := .replying j (a.map (h.box route.request)) }, false⟩) :
    ∃ s', sys.machine.step s (.perform i e) =
        some (s', [.performed i q (route.ran (shared.state.result j))]) ∧
      Related port { c with shared := shared, fatal := none } s' := by
  subst same
  have hmessage : (j, route.request) ∈ c.shared.state.pending := by
    simp [Handlers.State.pending, taken, Handlers.Worker.taken]
  obtain ⟨hrunning, hfatal, hresponse, _⟩ := related.waiting hmessage
  have hresult : Handlers.State.result
      { c.shared.state with
        db := db
        worker := .replying j (a.map (h.box route.request)) } j =
      some (a.map (h.box route.request)) := by
    simp only [Handlers.State.result, hresponse, if_true]
  rw [hresult]
  refine related.perform up hmessage ⟨rfl, reached, rfl, rfl, fun j' r hqueued => ?_,
    fun j' hj => (by cases hj), fun j' hj => ?_, ?_, asked, routed⟩ ?_
  · have hmem : j' ∈ c.shared.state.queue.map Prod.fst := List.mem_map_of_mem hqueued
    have hnodup := related.reached.sound.nodup
    rw [Handlers.State.pending, taken] at hnodup
    refine ⟨List.mem_append_right _ hqueued, ?_⟩
    rintro rfl
    exact (List.nodup_cons.mp hnodup).1 hmem
  · simp only [answer, Handlers.State.result, taken, hfatal, if_neg (Ne.symm hj)]
  · simp only [answer, hresult]
  · rw [port.executed routed handled, Route.ran_box, up]
    rfl

theorem Related.panics (related : Related port c s) (up : c.up = true) {i j : ℕ} {q : Q}
    {route : Route h (A q)} {e : E} {shared : h.Shared}
    (taken : c.shared.state.worker = .handling j route.request)
    (asked : c.asked[j]? = some (i, q)) (routed : port.route q = some route)
    (panics : h.handle route.request (port.env e) c.shared.state.db = none)
    (reached : Handlers.Reached left shared)
    (same : shared = ⟨c.shared.state.abandon
      (left route.request (port.env e) c.shared.state.db), true⟩) :
    ∃ s', sys.machine.step s (.perform i e) =
        some (s', [.performed i q (route.ran (shared.state.result j))]) ∧
      Related port { c with shared := shared, fatal := some j } s' := by
  subst same
  have hmessage : (j, route.request) ∈ c.shared.state.pending := by
    simp [Handlers.State.pending, taken, Handlers.Worker.taken]
  obtain ⟨_, hfatal, hresponse, _⟩ := related.waiting hmessage
  have hresult : Handlers.State.result (c.shared.state.abandon
      (left route.request (port.env e) c.shared.state.db)) j = none := by
    simp only [Handlers.State.result, Handlers.State.abandon, hresponse]
  rw [hresult]
  refine related.perform up hmessage ⟨rfl, reached, rfl, rfl, fun j' r hnone => (by cases hnone),
    fun j' hj => ?_, fun j' hj => ?_, ?_, asked, routed⟩ ?_
  · cases hj
    exact ⟨rfl, rfl⟩
  · simp [answer, Handlers.State.result, Handlers.State.abandon, taken, hfatal, Ne.symm hj]
  · simp only [answer, hresult, if_true]
  · rw [port.panicked routed panics, Bool.not_true, Bool.and_false]
    rfl

theorem Related.handle (related : Related port c s) (up : c.up = true) {e : E}
    {d : Served h Q A R} {o : List (ClientEvent Q A R T)}
    (step : port.serve queueSize c (.handle e) = some (d, o)) :
    ∃ i s', sys.machine.step s (.perform i e) = some (s', o) ∧ Related port d s' := by
  simp only [Port.serve] at step
  split at step
  · rename_i j r hworker
    split at step
    · rename_i shared notices i q hshared hasked
      obtain ⟨route, hroute, heq⟩ := Option.map_eq_some_iff.mp step
      cases heq
      have hreached := related.reached.step hshared
      have hmessage : (j, r) ∈ c.shared.state.pending := by
        simp [Handlers.State.pending, hworker, Handlers.Worker.taken]
      obtain ⟨_, _, _, hasked', hroute', hrequest, _⟩ := related.messages j r hmessage
      rw [hasked] at hasked'
      cases hasked'
      rw [hroute] at hroute'
      cases hroute'
      obtain ⟨_, _, hworker', hcase⟩ := Handlers.panicking_handle hshared
      rw [hworker] at hworker'
      cases hworker'
      subst hrequest
      have hrunning := (related.waiting hmessage).1
      rcases hcase with ⟨a, db, hhandle, hsame⟩ | ⟨hpanics, hsame⟩
      · rw [hrunning] at hsame
        rw [hsame] at hreached ⊢
        exact ⟨i, related.returns up hworker hasked hroute hhandle hreached rfl⟩
      · rw [hsame] at hreached ⊢
        exact ⟨i, related.panics up hworker hasked hroute hpanics hreached rfl⟩
    · cases step
  · cases step

theorem Related.outside (related : Related port c s) {i : ℕ} {x : Client Q A R}
    (waits : c.tasks.lookup i = some (.elsewhere x)) :
    s.clients.lookup i = some x ∧ Outside port x := by
  obtain ⟨houtside, hclient⟩ := related.tasks i _ waits
  exact ⟨hclient, houtside⟩

theorem Related.change (related : Related port c s) {i : ℕ} {x : Client Q A R}
    (waits : c.tasks.lookup i = some (.elsewhere x)) :
    Related port (c.without i) { s with clients := s.clients.erase i } ∧
      ∀ y, Outside port y → Related port { c with tasks := c.tasks.insert i (.elsewhere y) }
        { s with clients := s.clients.insert i y } := by
  have hlt := related.live i _ waits
  have hidle : ∀ j q k, c.tasks.lookup i ≠ some (.calling j q k) := by
    intro j q k hcalling
    rw [waits] at hcalling
    cases hcalling
  have hpresent : c.tasks.lookup i = none → s.clients.lookup i = none := by
    intro hnone
    rw [waits] at hnone
    cases hnone
  refine ⟨related.elsewhere hlt hidle hpresent (fun i' hi => by simp [hi]) fun y hy => ?_,
    fun y houtside => related.elsewhere hlt hidle hpresent (fun i' hi => by simp [hi])
      fun z hz => ?_⟩
  · simp at hy
  · rw [Table.lookup_insert_ite, if_pos rfl] at hz
    cases hz
    exact ⟨y, rfl, houtside, by simp⟩

theorem Related.other (related : Related port c s) (up : c.up = true) {i : ℕ} {e : E}
    {d : Served h Q A R} {o : List (ClientEvent Q A R T)}
    (step : port.serve queueSize c (.perform i e) = some (d, o)) :
    ∃ s', sys.machine.step s (.perform i e) = some (s', o) ∧ Related port d s' := by
  have hstore : s.store = port.store c.shared.state.db (!c.shared.panicked) := by
    rw [related.store, up, Bool.true_and]
  simp only [Port.serve] at step
  split at step
  · rename_i q k hwaits
    cases step
    obtain ⟨hclient, houtside⟩ := related.outside hwaits
    have hsame := port.elsewhere e c.shared.state.db (!c.shared.panicked) houtside
    have hrelated := (related.change hwaits).2 (.answered
      (k (sys.perform q e (port.store c.shared.state.db (!c.shared.panicked))).1)) trivial
    refine ⟨_, ?_, hrelated⟩
    simp only [Clients.machine, hclient, hstore, hsame]
  · rename_i q hwaits
    cases step
    obtain ⟨hclient, houtside⟩ := related.outside hwaits
    have hsame := port.elsewhere e c.shared.state.db (!c.shared.panicked) houtside
    refine ⟨_, ?_, (related.change hwaits).1⟩
    simp only [Clients.machine, hclient, hstore, hsame]
  · cases step

theorem Related.deliver (related : Related port c s) {i : ℕ} {d : Served h Q A R}
    {o : List (ClientEvent Q A R T)}
    (step : port.serve queueSize c (.deliver i) = some (d, o)) :
    ∃ s', sys.machine.step s (.deliver i) = some (s', o) ∧ Related port d s' := by
  simp only [Port.serve] at step
  split at step
  · rename_i p hwaits
    obtain ⟨hclient, _⟩ := related.outside hwaits
    obtain ⟨rfl, hrelated⟩ := (related.change hwaits).1.place (related.live i _ hwaits)
      (by simp [without]) (by simp) step
    have hplace : Clients.place (T := T) (s.clients.erase i) i p = Clients.place s.clients i p :=
      Clients.place_congr (fun i' hi => by simp [hi]) p
    rw [hplace] at hrelated ⊢
    refine ⟨_, ?_, hrelated⟩
    simp only [Clients.machine, hclient]
  · cases step

theorem Related.cancel (related : Related port c s) {i : ℕ} {d : Served h Q A R}
    {o : List (ClientEvent Q A R T)}
    (step : port.serve queueSize c (.cancel i) = some (d, o)) :
    ∃ input s', sys.machine.step s input = some (s', o) ∧ Related port d s' := by
  have herased : ∀ i', i' ≠ i → (s.clients.erase i).lookup i' = s.clients.lookup i' := by
    intro i' hi
    simp [hi]
  simp only [Port.serve] at step
  split at step
  · rename_i j q k hcalling
    obtain ⟨⟨shared, notices⟩, hshared, heq⟩ := Option.map_eq_some_iff.mp step
    cases heq
    have hreached := related.reached.step hshared
    have hsame := Handlers.panicking_cancel hshared
    obtain ⟨route, hroute, hasked, _, hclient⟩ := related.tasks i _ hcalling
    by_cases hmessage : ∃ r, (j, r) ∈ c.shared.state.pending
    · -- The worker will come to the message, with nobody there to learn of it.
      obtain ⟨r, hr⟩ := hmessage
      have hpending : s.clients.lookup i = some (.pending q k) := by
        rw [hclient, client, (related.waiting hr).2.2.2]
      have hothers : ∀ i', i' ≠ i →
          (s.clients.insert i (.detached q)).lookup i' = s.clients.lookup i' := by
        intro i' hi
        simp [hi]
      refine ⟨.detach i, _, ?_, related.leave hcalling hreached hsame hothers fun _ _ => by simp⟩
      simp only [Clients.machine, hpending]
    · refine ⟨.cancel i, _, ?_, related.leave hcalling hreached hsame herased
        fun r hr => absurd ⟨r, hr⟩ hmessage⟩
      rw [client] at hclient
      cases hanswer : c.answer j with
      | none =>
        rw [hanswer] at hclient
        simp only [Clients.machine, hclient]
      | some result =>
        rw [hanswer] at hclient
        simp only [Clients.machine, hclient]
  · cases step
  · rename_i x hdetached hwaits
    cases step
    obtain ⟨hclient, _⟩ := related.outside hwaits
    refine ⟨.cancel i, _, ?_, (related.change hwaits).1⟩
    cases x with
    | pending q k => simp only [Clients.machine, hclient]
    | detached q => exact absurd rfl (hdetached q)
    | answered p => simp only [Clients.machine, hclient]
  · cases step

theorem Related.detach (related : Related port c s) {i : ℕ} {d : Served h Q A R}
    {o : List (ClientEvent Q A R T)}
    (step : port.serve queueSize c (.detach i) = some (d, o)) :
    ∃ s', sys.machine.step s (.detach i) = some (s', o) ∧ Related port d s' := by
  simp only [Port.serve] at step
  split at step
  · rename_i q k hwaits
    cases step
    obtain ⟨hclient, houtside⟩ := related.outside hwaits
    refine ⟨_, ?_, (related.change hwaits).2 (.detached q) houtside⟩
    simp only [Clients.machine, hclient]
  · cases step

theorem Related.restart (related : Related port c s) (e : E) :
    ∃ s', sys.machine.step s (.restart e) = some (s', []) ∧
      Related port ⟨⟨.new (port.start e c.shared.state.db).1, false⟩, ∅, c.next, [], none,
        (port.start e c.shared.state.db).2⟩ s' := by
  refine ⟨_, rfl, .initial _, ?_, related.next, rfl, ?_, ?_, ?_, ?_, ?_, ?_, ?_⟩
  · simp only [related.store, port.restarted, Handlers.State.new, Bool.not_false, Bool.and_true]
  · simp
  · simp
  · simp
  · simp [Handlers.State.new]
  · simp [Handlers.State.new, Handlers.State.pending, Handlers.Worker.taken]
  · simp [Handlers.State.new, Handlers.State.pending, Handlers.Worker.taken]
  · simp

/-- What the program does is what the clients of the atomic database do, by steps of theirs. -/
theorem Related.step (related : Related port c s) {input : ServedInput T E} {d : Served h Q A R}
    {o : List (ClientEvent Q A R T)}
    (step : (port.machine queueSize).step c input = some (d, o)) :
    ∃ inputs s', sys.machine.run s inputs = some (s', o) ∧ Related port d s' := by
  have hone : ∀ {input' : ClientInput T E},
      (∃ s', sys.machine.step s input' = some (s', o) ∧ Related port d s') →
      ∃ inputs s', sys.machine.run s inputs = some (s', o) ∧ Related port d s' := by
    rintro input' ⟨s', hstep, hrelated⟩
    exact ⟨[input'], s', (Machine.run_singleton _).mpr hstep, hrelated⟩
  cases input with
  | restart e =>
    cases step
    exact hone (related.restart e)
  | spawn t =>
    obtain ⟨_, hserve⟩ := Option.ite_none_right_eq_some.mp step
    exact hone (related.spawn hserve)
  | send i =>
    obtain ⟨_, hserve⟩ := Option.ite_none_right_eq_some.mp step
    exact related.send hserve
  | receive =>
    obtain ⟨_, hserve⟩ := Option.ite_none_right_eq_some.mp step
    obtain ⟨p, hshared, heq⟩ := Option.map_eq_some_iff.mp hserve
    cases heq
    exact ⟨[], s, rfl, related.receive hshared⟩
  | handle e =>
    obtain ⟨hup, hserve⟩ := Option.ite_none_right_eq_some.mp step
    obtain ⟨i, hstep⟩ := related.handle hup hserve
    exact hone hstep
  | reply =>
    obtain ⟨_, hserve⟩ := Option.ite_none_right_eq_some.mp step
    obtain ⟨p, hshared, heq⟩ := Option.map_eq_some_iff.mp hserve
    cases heq
    exact ⟨[], s, rfl, related.reply hshared⟩
  | finish i =>
    obtain ⟨_, hserve⟩ := Option.ite_none_right_eq_some.mp step
    exact related.finish hserve
  | perform i e =>
    obtain ⟨hup, hserve⟩ := Option.ite_none_right_eq_some.mp step
    exact hone (related.other hup hserve)
  | deliver i =>
    obtain ⟨_, hserve⟩ := Option.ite_none_right_eq_some.mp step
    exact hone (related.deliver hserve)
  | cancel i =>
    obtain ⟨_, hserve⟩ := Option.ite_none_right_eq_some.mp step
    obtain ⟨input', hstep⟩ := related.cancel hserve
    exact hone hstep
  | detach i =>
    obtain ⟨_, hserve⟩ := Option.ite_none_right_eq_some.mp step
    exact hone (related.detach hserve)

theorem Related.initial (db : h.Db) :
    Related port (.initial db : Served h Q A R) (.initial (port.store db true)) := by
  refine ⟨.initial db, rfl, rfl, rfl, ?_, ?_, ?_, ?_, ?_, ?_, ?_⟩
  · simp [Served.initial]
  · simp [Served.initial]
  · simp [Served.initial]
  · simp [Served.initial, Handlers.State.new]
  · simp [Served.initial, Handlers.State.new, Handlers.State.pending, Handlers.Worker.taken]
  · simp [Served.initial, Handlers.State.new, Handlers.State.pending, Handlers.Worker.taken]
  · simp [Served.initial]

theorem Related.run (related : Related port c s) {inputs : List (ServedInput T E)}
    {d : Served h Q A R} {es : List (ClientEvent Q A R T)}
    (run : (port.machine queueSize).run c inputs = some (d, es)) :
    ∃ inputs' s', sys.machine.run s inputs' = some (s', es) ∧ Related port d s' :=
  Machine.run_simulates (port.machine queueSize) sys.machine (Related port)
    (fun _ _ _ _ _ hrelated hstep => hrelated.step hstep) related run

end Served

/-- For any number of tasks, any queue size, any interleaving, with cancellations, panics of the
handlers and restarts: what the tasks see, and what they return, is what clients of a database see
that performs each request at once, and answers every request with the error of a closed channel
from a panic on. -/
theorem served_by_worker {db : h.Db} {inputs : List (ServedInput T E)}
    {es : List (ClientEvent Q A R T)}
    (run : (port.machine queueSize).run (.initial db) inputs = some (c, es)) :
    ∃ inputs' s', sys.machine.run (.initial (port.store db true)) inputs' = some (s', es) ∧
      s'.store = port.store c.shared.state.db (c.up && !c.shared.panicked) ∧ s'.next = c.next := by
  obtain ⟨inputs', s', run', hrelated⟩ := (Served.Related.initial db).run run
  exact ⟨inputs', s', run', hrelated.store, hrelated.next⟩

end Refinement

end RustExperiments.AsyncRedb
