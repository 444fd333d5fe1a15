/- module: RustExperiments/Sums/Acceptance
   digest: One request per identifier is accepted and journaled, for any concurrent clients. -/

import RustExperiments.Sums.Json
import RustExperiments.Sums.Submission

set_option autoImplicit false
set_option relaxedAutoImplicit false

namespace RustExperiments.Sums

open RustExperiments.Lib

abbrev SumsEvent := ClientEvent Await Answer Outcome Task

def acceptance : SumsEvent → Option (ℕ × String)
  | .performed i (.run (.checkAndStoreId id)) (.ok .unique) => some (i, id)
  | _ => none

/-- The clients that received `Unique`, with the identifiers, in order. -/
def acceptances (es : List SumsEvent) : List (ℕ × String) := es.filterMap acceptance

@[simp] theorem acceptances_append (xs ys : List SumsEvent) :
    acceptances (xs ++ ys) = acceptances xs ++ acceptances ys := List.filterMap_append ..

theorem acceptances_concat {es : List SumsEvent} {e : SumsEvent} (silent : acceptance e = none) :
    acceptances (es ++ [e]) = acceptances es := by
  rw [acceptances_append, acceptances, acceptances, List.filterMap_cons_none silent]
  exact List.append_nil _

section Invariant

variable (crates : Crates)

/-- The client POSTed this request. -/
def Posted (es : List SumsEvent) (i : ℕ) (req : SumRequest) : Prop :=
  ∃ body, .spawned i (.sums body) ∈ es ∧ crates.requestFromSlice body = .ok req ∧ req.id ≠ ""

/-- The client received `Unique` for this request. -/
def Accepted (es : List SumsEvent) (i : ℕ) (req : SumRequest) : Prop :=
  (i, req.id) ∈ acceptances es ∧ Posted crates es i req

/-- What the tables, the accepted identifiers and the handlers say about each other. -/
structure Accepting (es : List SumsEvent) (db : SumsDb) (Γ : ℕ → Option Submission) : Prop where
  processed : ∀ id, db.processed id = true ↔ id ∈ (acceptances es).map Prod.snd
  once : ((acceptances es).map Prod.snd).Nodup
  nonempty : ∀ id ∈ (acceptances es).map Prod.snd, id ≠ ""
  posted : ∀ i g req, Γ i = some g → g.request = some req → Posted crates es i req
  unjournaled : ∀ i g req, Γ i = some g → g.unjournaled = some req → Accepted crates es i req ∧
    ∀ k entry, db.journal k = some (crates.entryToVec entry) → entry.id ≠ req.id
  journal : ∀ k bytes, db.journal k = some bytes → ∃ i req micros,
    bytes = crates.entryToVec (req.entry micros) ∧ Accepted crates es i req
  distinct : ∀ k k' entry entry', db.journal k = some (crates.entryToVec entry) →
    db.journal k' = some (crates.entryToVec entry') → entry.id = entry'.id → k = k'

variable {crates} {es es' : List SumsEvent} {db db' : SumsDb} {Γ Γ' : ℕ → Option Submission}

theorem entryToVec_injective {entry entry' : JournalEntry}
    (h : crates.entryToVec entry = crates.entryToVec entry') : entry = entry' := by
  have hdecoded := crates.entryFromSlice_toVec entry
  rw [h, crates.entryFromSlice_toVec] at hdecoded
  exact (Except.ok.inj hdecoded).symm

theorem Posted.append {i : ℕ} {req : SumRequest} (h : Posted crates es i req)
    (more : List SumsEvent) : Posted crates (es ++ more) i req := by
  obtain ⟨body, hspawned, hparsed⟩ := h
  exact ⟨body, List.mem_append_left _ hspawned, hparsed⟩

theorem Accepted.append {i : ℕ} {req : SumRequest} (h : Accepted crates es i req)
    (more : List SumsEvent) : Accepted crates (es ++ more) i req := by
  refine ⟨?_, h.2.append more⟩
  rw [acceptances_append]
  exact List.mem_append_left _ h.1

theorem Accepting.initial {db : SumsDb} (unprocessed : ∀ id, db.processed id = false)
    (unwritten : ∀ k, db.journal k = none) : Accepting crates [] db fun _ => none where
  processed id := by simp [unprocessed, acceptances]
  once := List.nodup_nil
  nonempty := by simp [acceptances]
  posted i g req h := by cases h
  unjournaled i g req h := by cases h
  journal k bytes h := by simp [unwritten] at h
  distinct k k' entry entry' h := by simp [unwritten] at h

namespace Accepting

theorem frame (h : Accepting crates es db Γ) {more : List SumsEvent}
    (silent : acceptances (es ++ more) = acceptances es) (processed : db'.processed = db.processed)
    (journal : db'.journal = db.journal)
    (posted : ∀ i g req, Γ' i = some g → g.request = some req → Posted crates (es ++ more) i req)
    (unjournaled : ∀ i g req, Γ' i = some g → g.unjournaled = some req →
      ∃ g', Γ i = some g' ∧ g'.unjournaled = some req) :
    Accepting crates (es ++ more) db' Γ' where
  processed id := by rw [processed, silent]; exact h.processed id
  once := by rw [silent]; exact h.once
  nonempty := by rw [silent]; exact h.nonempty
  posted := posted
  unjournaled i g req hg hreq := by
    obtain ⟨g', hg', hreq'⟩ := unjournaled i g req hg hreq
    obtain ⟨haccepted, hfresh⟩ := h.unjournaled i g' req hg' hreq'
    exact ⟨haccepted.append more, fun k entry hk => hfresh k entry (journal ▸ hk)⟩
  journal k bytes hk := by
    obtain ⟨i, req, micros, hbytes, haccepted⟩ := h.journal k bytes (journal ▸ hk)
    exact ⟨i, req, micros, hbytes, haccepted.append more⟩
  distinct k k' entry entry' hk hk' := h.distinct k k' entry entry' (journal ▸ hk) (journal ▸ hk')

theorem advance (h : Accepting crates es db Γ) {i : ℕ} {g g' : Submission} {e : SumsEvent}
    (live : Γ i = some g) (silent : acceptance e = none) (processed : db'.processed = db.processed)
    (journal : db'.journal = db.journal)
    (request : ∀ req, g'.request = some req → g.request = some req)
    (unjournaled : ∀ req, g'.unjournaled = some req → g.unjournaled = some req) :
    Accepting crates (es ++ [e]) db' (Function.update Γ i (some g')) := by
  refine h.frame (acceptances_concat silent) processed journal (fun j v req hv hreq => ?_)
    fun j v req hv hreq => ?_
  · rcases Clients.update_cases hv with ⟨rfl, heq⟩ | ⟨_, hold⟩
    · cases heq
      exact (h.posted j g req live (request req hreq)).append _
    · exact (h.posted j v req hold hreq).append _
  · rcases Clients.update_cases hv with ⟨rfl, heq⟩ | ⟨_, hold⟩
    · cases heq
      exact ⟨g, live, unjournaled req hreq⟩
    · exact ⟨v, hold, hreq⟩

theorem finish (h : Accepting crates es db Γ) {i : ℕ} {g : Submission} {e : SumsEvent}
    (live : Γ i = some g) (silent : acceptance e = none) (o : Outcome) :
    Accepting crates (es ++ [e]) db (Function.update Γ i (some (.ended o))) :=
  h.advance live silent rfl rfl (fun _ hreq => by cases hreq) fun _ hreq => by cases hreq

theorem unique (h : Accepting crates es db Γ) {i : ℕ} {req : SumRequest}
    (live : Γ i = some (.checking req)) (new : db.processed req.id = false) (checks : Bool) :
    Accepting crates (es ++ [.performed i (.run (.checkAndStoreId req.id)) (.ok .unique)])
      (db.storeId req.id) (Function.update Γ i (some (.afterUnique checks req))) := by
  have haccepted : acceptances
      (es ++ [.performed i (.run (.checkAndStoreId req.id)) (.ok .unique)]) =
        acceptances es ++ [(i, req.id)] := acceptances_append _ _
  have hnew : req.id ∉ (acceptances es).map Prod.snd := by
    rw [← h.processed, new]
    exact Bool.false_ne_true
  have hposted := h.posted i _ req live rfl
  have hunwritten : ∀ k entry, db.journal k = some (crates.entryToVec entry) →
      entry.id ≠ req.id := by
    intro k entry hk hid
    obtain ⟨j, req', micros, hbytes, hold, _⟩ := h.journal k _ hk
    obtain rfl := entryToVec_injective hbytes
    exact hnew (hid ▸ List.mem_map_of_mem hold)
  constructor
  case processed =>
    intro id
    rw [haccepted, List.map_append, List.mem_append, ← h.processed]
    simp [or_comm]
  case once =>
    rw [haccepted, List.map_append, List.nodup_append]
    refine ⟨h.once, by simp, fun id hid other hother heq => hnew ?_⟩
    obtain rfl : other = req.id := by simpa using hother
    exact heq ▸ hid
  case nonempty =>
    intro id hid
    rw [haccepted, List.map_append] at hid
    rcases List.mem_append.mp hid with hold | hlast
    · exact h.nonempty id hold
    · obtain rfl : id = req.id := by simpa using hlast
      obtain ⟨_, _, _, hne⟩ := hposted
      exact hne
  case posted =>
    intro j g req' hg hreq
    rcases Clients.update_cases hg with ⟨rfl, heq⟩ | ⟨_, hold⟩
    · cases heq
      obtain rfl := Submission.afterUnique_request hreq
      exact hposted.append _
    · exact (h.posted j g req' hold hreq).append _
  case unjournaled =>
    intro j g req' hg hreq
    rcases Clients.update_cases hg with ⟨rfl, heq⟩ | ⟨_, hold⟩
    · cases heq
      obtain rfl := Submission.afterUnique_unjournaled hreq
      exact ⟨⟨by rw [haccepted]; simp, hposted.append _⟩, hunwritten⟩
    · obtain ⟨hacc, hfresh⟩ := h.unjournaled j g req' hold hreq
      exact ⟨hacc.append _, hfresh⟩
  case journal =>
    intro k bytes hk
    obtain ⟨j, req', micros, hbytes, hacc⟩ := h.journal k bytes hk
    exact ⟨j, req', micros, hbytes, hacc.append _⟩
  case distinct => exact h.distinct

theorem journaled (h : Accepting crates es db Γ) {i : ℕ} {req : SumRequest} {micros : ℕ}
    (live : Γ i = some (.journaling req micros)) (next : ℕ) :
    Accepting crates (es ++ [.performed i (.run (.addToJournal (req.entry micros))) (.ok ())])
      (db.append (crates.entryToVec (req.entry micros)) next)
      (Function.update Γ i (some (.ended (.response 200 "OK\n")))) := by
  have haccepted : acceptances
      (es ++ [.performed i (.run (.addToJournal (req.entry micros))) (.ok ())]) = acceptances es :=
    acceptances_concat rfl
  obtain ⟨hacc, hfresh⟩ := h.unjournaled i _ req live rfl
  have hcases : ∀ {k entry}, (db.append (crates.entryToVec (req.entry micros)) next).journal k =
      some (crates.entryToVec entry) → k = db.idx ∧ entry = req.entry micros ∨
        k ≠ db.idx ∧ db.journal k = some (crates.entryToVec entry) := by
    intro k entry hk
    rw [SumsDb.journal_append] at hk
    split_ifs at hk with hkey
    · exact Or.inl ⟨hkey, (entryToVec_injective (Option.some.inj hk)).symm⟩
    · exact Or.inr ⟨hkey, hk⟩
  constructor
  case processed =>
    rw [haccepted]
    exact h.processed
  case once =>
    rw [haccepted]
    exact h.once
  case nonempty =>
    rw [haccepted]
    exact h.nonempty
  case posted =>
    intro j g req' hg hreq
    rcases Clients.update_cases hg with ⟨rfl, heq⟩ | ⟨_, hold⟩
    · cases heq
      cases hreq
    · exact (h.posted j g req' hold hreq).append _
  case unjournaled =>
    intro j g req' hg hreq
    rcases Clients.update_cases hg with ⟨rfl, heq⟩ | ⟨hne, hold⟩
    · cases heq
      cases hreq
    obtain ⟨hacc', hfresh'⟩ := h.unjournaled j g req' hold hreq
    refine ⟨hacc'.append _, fun k entry hk hid => ?_⟩
    rcases hcases hk with ⟨_, rfl⟩ | ⟨_, hk⟩
    · -- Two clients with the same identifier cannot both have received `Unique`.
      have hsame := List.inj_on_of_nodup_map h.once hacc'.1 hacc.1 hid.symm
      exact hne (Prod.mk.inj hsame).1
    · exact hfresh' k entry hk hid
  case journal =>
    intro k bytes hk
    rw [SumsDb.journal_append] at hk
    split_ifs at hk with hkey
    · cases hk
      exact ⟨i, req, micros, rfl, hacc.append _⟩
    · obtain ⟨j, req', micros', hbytes, hacc'⟩ := h.journal k bytes hk
      exact ⟨j, req', micros', hbytes, hacc'.append _⟩
  case distinct =>
    intro k k' entry entry' hk hk' hid
    rcases hcases hk with ⟨hkey, rfl⟩ | ⟨_, hk⟩
    · rcases hcases hk' with ⟨hkey', _⟩ | ⟨_, hk'⟩
      · exact hkey.trans hkey'.symm
      · exact absurd hid.symm (hfresh k' entry' hk')
    · rcases hcases hk' with ⟨_, rfl⟩ | ⟨_, hk'⟩
      · exact absurd hid (hfresh k entry hk)
      · exact h.distinct k k' entry entry' hk hk' hid

theorem perform (h : Accepting crates es db Γ) {checks : Bool} {i : ℕ} {g : Submission} {q : Await}
    {a : Answer q} (live : Γ i = some g) (allowed : g.allows q)
    (effect : Effect crates checks db q a db') :
    Accepting crates (es ++ [.performed i q a]) db'
      (Function.update Γ i (some (g.next checks q a))) := by
  cases effect with
  | failed q e =>
    have hsilent : acceptance (.performed i (.run q) (.error e)) = none := by cases q <;> rfl
    rcases next_error checks allowed e with ⟨rfl, hnext⟩ | ⟨o, hnext⟩
    · rw [hnext]
      exact h.advance live hsilent rfl rfl (fun _ hreq => hreq) fun _ hreq => hreq
    · rw [hnext]
      exact h.finish live hsilent o
  | counted counterType value =>
    obtain rfl := allows_read (by trivial) allowed
    exact h.advance live rfl rfl rfl (fun _ hreq => hreq) fun _ hreq => hreq
  | dotted idx value =>
    obtain rfl := allows_read (by trivial) allowed
    exact h.advance live rfl rfl rfl (fun _ hreq => hreq) fun _ hreq => hreq
  | duplicate id known =>
    obtain ⟨req, rfl, rfl⟩ := allows_check allowed
    exact h.finish live rfl _
  | unique id new =>
    obtain ⟨req, rfl, rfl⟩ := allows_check allowed
    exact h.unique live new checks
  | journaled entry next advanced =>
    obtain ⟨req, micros, rfl, rfl⟩ := allows_append allowed
    exact h.journaled live next
  | read n entries =>
    obtain rfl := allows_read (by trivial) allowed
    exact h.advance live rfl rfl rfl (fun _ hreq => hreq) fun _ hreq => hreq
  | now micros =>
    obtain ⟨req, rfl⟩ := allows_now allowed
    cases micros with
    | none => exact h.finish live rfl _
    | some micros => exact h.advance live rfl rfl rfl (fun _ hreq => hreq) fun _ hreq => hreq

end Accepting

end Invariant

section Journal

/-- The keys of the journal are those below the next one. -/
def Growing (db : SumsDb) : Prop := (db.sumsJournal.getD ∅).keys = Finset.range db.idx

variable {crates : Crates} {checks : Bool} {db db' : SumsDb}

theorem Growing.unwritten (h : Growing db) : db.journal db.idx = none := by
  have hkey : db.idx ∉ (db.sumsJournal.getD ∅).keys := by
    rw [h]
    exact Finset.notMem_range_self
  rwa [Finmap.mem_keys, ← Finmap.lookup_eq_none] at hkey

theorem Growing.insert_keys (h : Growing db) (bytes : String) :
    ((db.sumsJournal.getD ∅).insert db.idx bytes).keys = Finset.range (db.idx + 1) := by
  ext k
  rw [Finmap.mem_keys, Finmap.mem_insert, ← Finmap.mem_keys, h, Finset.range_add_one,
    Finset.mem_insert]

/-- A table that has room for the next key has keys left, so that the next key never comes
round. -/
theorem Growing.advanced (h : Growing db) {bytes : String} {next : ℕ}
    (room : ((db.sumsJournal.getD ∅).insert db.idx bytes).keys.card ≤ crates.capacity)
    (advanced : u64Add checks db.idx 1 = some next) : next = db.idx + 1 := by
  rw [h.insert_keys, Finset.card_range] at room
  rw [u64Add, u64Fit_of_lt (Nat.lt_of_le_of_lt room crates.capacity_lt)] at advanced
  exact (Option.some.inj advanced).symm

theorem Growing.perform (h : Growing db) {q : Await} {a : Answer q}
    (effect : Effect crates checks db q a db') : Growing db' := by
  cases effect with
  | journaled entry next room advanced =>
    rw [Growing, SumsDb.idx_append, h.advanced room advanced]
    exact h.insert_keys _
  | _ => exact h

def Extends (s s' : Service SumsDb) : Prop :=
  ∀ k bytes, s.db.journal k = some bytes → s'.db.journal k = some bytes

theorem Growing.extends_perform (h : Growing db) {q : Await} {a : Answer q}
    (effect : Effect crates checks db q a db') {k : ℕ} {bytes : String}
    (hk : db.journal k = some bytes) : db'.journal k = some bytes := by
  cases effect with
  | journaled entry next room advanced =>
    have hne : k ≠ db.idx := by
      rintro rfl
      rw [h.unwritten] at hk
      cases hk
    rw [SumsDb.journal_append, if_neg hne]
    exact hk
  | _ => exact hk

end Journal

section Runs

variable (crates : Crates) (checks : Bool)

theorem reboot_same (env : Env) (s : Service SumsDb) :
    (reboot crates checks env s).db.processed = s.db.processed ∧
      (reboot crates checks env s).db.journal = s.db.journal ∧
      (Growing s.db → Growing (reboot crates checks env s).db) := by
  rcases reboot_cases crates checks env s with hdb | ⟨value, hdb⟩
  · rw [hdb]
    exact ⟨rfl, rfl, fun h => h⟩
  · rw [hdb]
    exact ⟨rfl, rfl, fun h => h⟩

theorem accepting_preserved :
    (sums crates checks).Preserved (sumsProtocol checks) Submission.Returns (.start crates)
      fun es s Γ => Accepting crates es s.db Γ where
  obeys := task_obeys crates checks
  spawn {es s Γ} i t h _ _ := by
    refine h.frame (acceptances_concat rfl) rfl rfl (fun j g req hg hreq => ?_)
      fun j g req hg hreq => ?_
    · rcases Clients.update_cases hg with ⟨rfl, heq⟩ | ⟨_, hold⟩
      · cases heq
        obtain ⟨body, rfl, hparsed, hne⟩ := start_request hreq
        exact ⟨body, by simp, hparsed, hne⟩
      · exact (h.posted j g req hold hreq).append _
    · rcases Clients.update_cases hg with ⟨rfl, heq⟩ | ⟨_, hold⟩
      · cases heq
        rw [start_unjournaled] at hreq
        cases hreq
      · exact ⟨g, hold, hreq⟩
  perform i g q e h live allowed := h.perform live allowed (perform_effect crates checks q e _)
  returned i g o h _ _ :=
    h.frame (acceptances_concat rfl) rfl rfl
      (fun j g req hg hreq =>
        (h.posted j g req (Clients.update_none_cases hg) hreq).append _)
      fun j g req hg hreq => ⟨g, Clients.update_none_cases hg, hreq⟩
  drop {es s Γ} i h := by
    rw [← List.append_nil es]
    exact h.frame (by rw [List.append_nil]) rfl rfl
      (fun j g req hg hreq =>
        (h.posted j g req (Clients.update_none_cases hg) hreq).append _)
      fun j g req hg hreq => ⟨g, Clients.update_none_cases hg, hreq⟩
  restart {es s _} env h := by
    obtain ⟨hprocessed, hjournal, _⟩ := reboot_same crates checks env s
    rw [← List.append_nil es]
    exact h.frame (by rw [List.append_nil]) hprocessed hjournal (fun _ _ _ hg => by cases hg)
      fun _ _ _ hg => by cases hg

theorem growing_preserved :
    (sums crates checks).Preserved (sumsProtocol checks) Submission.Returns (.start crates)
      fun _ s _ => True → Growing s.db where
  obeys := task_obeys crates checks
  spawn _ _ h _ _ := h
  perform _ _ q e h _ _ _ := (h trivial).perform (perform_effect crates checks q e _)
  returned _ _ _ h _ _ := h
  drop _ h := h
  restart {_ s _} env h _ := (reboot_same crates checks env s).2.2 (h trivial)

theorem growing_extends (base : Service SumsDb) :
    (sums crates checks).Preserved (sumsProtocol checks) Submission.Returns (.start crates)
      fun _ s _ => True → Growing s.db ∧ Extends base s := by
  refine (growing_preserved crates checks).reaches (fun _ _ _ => trivial)
    (r := Extends) (fun _ _ _ h h' k bytes hk => h' k bytes (h k bytes hk)) ?_ ?_ base
  · intro es s Γ i g q env h _ _ k bytes hk
    exact h.extends_perform (perform_effect crates checks q env s) hk
  · intro es s Γ env _ k bytes hk
    have hkept : ((sums crates checks).reboot env s).db.journal = s.db.journal :=
      (reboot_same crates checks env s).2.1
    rw [hkept]
    exact hk

end Runs

section Duplicates

variable {crates : Crates} {checks : Bool}

theorem next_not_checking {g : Submission} (h : ∀ req, g ≠ .checking req) (q : Await) (a : Answer q)
    (req : SumRequest) : g.next checks q a ≠ .checking req := by
  cases g with
  | checking req' => exact absurd rfl (h req')
  | accepted req' =>
    rcases q with q | _
    · exact fun heq => by cases heq
    · cases a <;> exact fun heq => by cases heq
  | journaling req' micros => exact fun heq => by cases heq
  | ended o => exact fun heq => by cases heq
  | reader => exact fun heq => by cases heq

theorem path_checks_nothing {g g' : Submission} {answers : List (Σ q, Answer q)}
    (path : (sumsProtocol checks).Path g answers g') (h : ∀ req, g ≠ .checking req) {id : String}
    {a : Answer (.run (.checkAndStoreId id))} : ⟨.run (.checkAndStoreId id), a⟩ ∉ answers := by
  induction path with
  | nil => exact List.not_mem_nil
  | cons allowed _ ih =>
    intro hmem
    rcases List.mem_cons.mp hmem with heq | hmem
    · cases heq
      obtain ⟨req, hg, _⟩ := allows_check allowed
      exact h req hg
    · exact ih (next_not_checking h _ _) hmem

theorem path_duplicate {g g' : Submission} {answers : List (Σ q, Answer q)}
    (path : (sumsProtocol checks).Path g answers g') {id : String}
    (told : ⟨.run (.checkAndStoreId id), .ok .duplicate⟩ ∈ answers) :
    answers = [⟨.run (.checkAndStoreId id), .ok .duplicate⟩] ∧ g' = .ended .duplicate := by
  cases path with
  | nil => cases told
  | @cons _ _ q a answers allowed rest =>
    by_cases hchecking : ∃ req, g = .checking req
    · obtain ⟨req, rfl⟩ := hchecking
      obtain rfl := allowed
      have hnext : ∀ req', Submission.next checks (.checking req)
          (.run (.checkAndStoreId req.id)) a ≠ .checking req' := by
        intro req'
        rcases a with e | response
        · exact fun heq => by cases heq
        · cases response with
          | duplicate => exact fun heq => by cases heq
          | unique =>
            rcases Submission.afterUnique_cases checks req with hafter | ⟨o, hafter⟩ <;>
              simp [Submission.next, hafter]
      rcases List.mem_cons.mp told with heq | hmem
      · cases heq
        obtain ⟨rfl, hg⟩ := rest.of_final fun q hq => hq
        exact ⟨rfl, hg⟩
      · exact absurd hmem (path_checks_nothing rest hnext)
    · have hnot : ∀ req, g ≠ .checking req := fun req hg => hchecking ⟨req, hg⟩
      exact absurd told (path_checks_nothing (.cons allowed rest) hnot)

end Duplicates

section Main

variable {crates : Crates} {checks : Bool}

theorem first_empty (crates : Crates) (checks : Bool) :
    (∀ id, (first crates checks).db.processed id = false) ∧
      (∀ k, (first crates checks).db.journal k = none) ∧ Growing (first crates checks).db := by
  obtain ⟨hprocessed, hjournal, hgrowing⟩ :=
    reboot_same crates checks (.at 0) ⟨⟨none, none, none, none, none⟩, false⟩
  refine ⟨fun id => ?_, fun k => ?_, hgrowing rfl⟩
  · rw [first, hprocessed]
    rfl
  · rw [first, hjournal]
    rfl

theorem check_known {id : String} {env : Env} {s s' : Service SumsDb} {a : CheckAndStoreIdResponse}
    (known : s.db.processed id = true)
    (performed : perform crates checks (.run (.checkAndStoreId id)) env s = (.ok a, s')) :
    a = .duplicate ∧ s'.db = s.db := by
  have heffect := perform_effect crates checks (.run (.checkAndStoreId id)) env s
  rw [performed] at heffect
  generalize s'.db = db' at heffect
  cases heffect with
  | duplicate _ _ => exact ⟨rfl, rfl⟩
  | unique _ new =>
    rw [known] at new
    cases new

/-- In every run of any number of concurrent requests to any of the routes, with failing storage
operations, dropped handlers and restarts anywhere: at most one request of an identifier receives
`Unique`; every later check of it that succeeds answers `Duplicate` and changes no table, and its
handler asks for nothing else and returns 409; an entry of the journal is that of the request that
received `Unique`, there is no second one of its identifier, and it is never overwritten or
removed; the empty identifier is in no table. -/
theorem one_acceptance {inputs₁ inputs₂ : List (ClientInput Task Env)}
    {mid final : Clients.State Await Answer Outcome (Service SumsDb)} {es₁ es₂ : List SumsEvent}
    (run₁ : (sums crates checks).machine.run (.initial (first crates checks)) inputs₁ =
      some (mid, es₁))
    (run₂ : (sums crates checks).machine.run mid inputs₂ = some (final, es₂)) :
    ((acceptances (es₁ ++ es₂)).map Prod.snd).Nodup ∧
    (∀ i j id input mid' o a, (i, id) ∈ acceptances es₁ →
      (sums crates checks).machine.step mid input = some (mid', o) →
      .performed j (.run (.checkAndStoreId id)) (.ok a) ∈ o →
      a = .duplicate ∧ mid'.store.db = mid.store.db) ∧
    (∀ i id, .performed i (.run (.checkAndStoreId id)) (.ok .duplicate) ∈ es₁ ++ es₂ →
      (∀ q a, .performed i q a ∈ es₁ ++ es₂ → q = .run (.checkAndStoreId id)) ∧
      ∀ o, .returned i o ∈ es₁ ++ es₂ → o = .response 409 "Error: Duplicate request ID.\n") ∧
    (∀ k bytes, final.store.db.journal k = some bytes → ∃ i req micros,
      bytes = crates.entryToVec ⟨req.id, req.a, req.b, req.c, micros % 2 ^ 64⟩ ∧
      Accepted crates (es₁ ++ es₂) i req ∧ final.store.db.processed req.id = true) ∧
    (∀ k k' entry entry', final.store.db.journal k = some (crates.entryToVec entry) →
      final.store.db.journal k' = some (crates.entryToVec entry') → entry.id = entry'.id →
      k = k') ∧
    (∀ k bytes, mid.store.db.journal k = some bytes → final.store.db.journal k = some bytes) ∧
    final.store.db.processed "" = false ∧
    ∀ k entry, final.store.db.journal k = some (crates.entryToVec entry) → entry.id ≠ "" := by
  obtain ⟨hprocessed, hjournal, hgrowing⟩ := first_empty crates checks
  have run := (sums crates checks).machine.run_append run₁ run₂
  obtain ⟨Γ₁, hmid⟩ := Clients.invariant (accepting_preserved crates checks)
    (.initial hprocessed hjournal) run₁
  obtain ⟨Γ, hfinal⟩ := Clients.invariant (accepting_preserved crates checks)
    (.initial hprocessed hjournal) run
  have inv := hfinal.inv
  obtain ⟨Γ₂, hgrows⟩ := Clients.invariant (growing_preserved crates checks)
    (fun _ => hgrowing) run₁
  have hgrows' : Clients.Ghosted (sumsProtocol checks) Submission.Returns
      (fun _ s _ => True → Growing s.db ∧ Extends mid.store s) es₁ mid Γ₂ :=
    ⟨hgrows.agree, hgrows.fresh, fun _ => ⟨hgrows.inv trivial, fun _ _ hk => hk⟩⟩
  obtain ⟨Γ₃, hextends⟩ := hgrows'.run (growing_extends crates checks mid.store) run₂
  have hempty : final.store.db.processed "" = false := by
    rw [← Bool.not_eq_true, inv.processed]
    exact fun hmem => inv.nonempty "" hmem rfl
  refine ⟨inv.once, ?_, ?_, ?_, inv.distinct, (hextends.inv trivial).2, hempty, ?_⟩
  · intro i j id input mid' o a haccepted hstep hperformed
    have hknown : mid.store.db.processed id = true :=
      (hmid.inv.processed id).mpr (List.mem_map_of_mem haccepted)
    obtain ⟨env, hperform⟩ := Clients.perform_of_step hstep hperformed
    exact check_known hknown hperform
  · intro i id hduplicate
    obtain ⟨task, hspawned⟩ :=
      Clients.spawned_of_performed (task_obeys crates checks) run hduplicate
    obtain ⟨g, htold⟩ := Clients.told_of_run (task_obeys crates checks) run hspawned
    obtain ⟨hanswers, rfl⟩ := path_duplicate htold.path (Clients.mem_answersTo hduplicate)
    refine ⟨fun q a hq => ?_, fun o ho => htold.returned o ho⟩
    have hmem := Clients.mem_answersTo hq
    rw [hanswers] at hmem
    cases List.mem_singleton.mp hmem
    rfl
  · intro k bytes hk
    obtain ⟨i, req, micros, hbytes, haccepted⟩ := inv.journal k bytes hk
    exact ⟨i, req, micros, hbytes, haccepted,
      (inv.processed req.id).mpr (List.mem_map_of_mem haccepted.1)⟩
  · intro k entry hk
    obtain ⟨i, req, micros, hbytes, _, _, _, _, hne⟩ := inv.journal k _ hk
    obtain rfl := entryToVec_injective hbytes
    exact hne

def foobarBody : List UInt8 := bodyOf "\x7b\"id\":\"foobar\",\"a\":2,\"b\":3,\"c\":5\x7d"

def secondAccepted : List (ClientInput Task Env) :=
  [.spawn (.sums foobarBody), .spawn (.sums foobarBody), .perform 1 (.at 1), .deliver 1,
    .perform 1 (.at 2), .deliver 1, .perform 1 (.at 3)]

def firstRefused : List (ClientInput Task Env) :=
  [.cancel 1, .perform 0 (.at 4), .deliver 0, .restart (.at 5), .spawn (.sums foobarBody),
    .perform 2 (.at 6), .deliver 2]

theorem second_accepted_once : ∃ mid es₁ final es₂ bytes,
    (sums asciiJson true).machine.run (.initial (first asciiJson true)) secondAccepted =
      some (mid, es₁) ∧
    (sums asciiJson true).machine.run mid firstRefused = some (final, es₂) ∧
    acceptances (es₁ ++ es₂) = [(1, "foobar")] ∧ mid.store.db.journal 0 = some bytes ∧
    final.store.db.journal 0 = some bytes := by
  have hrun : ((sums asciiJson true).machine.run (.initial (first asciiJson true))
      (secondAccepted ++ firstRefused)).map (fun p => acceptances p.2) = some [(1, "foobar")] := by
    decide +kernel
  have hjournal : ((sums asciiJson true).machine.run (.initial (first asciiJson true))
      secondAccepted).map (fun p => (p.1.store.db.journal 0).isSome) = some true := by
    decide +kernel
  obtain ⟨⟨final, es⟩, run, haccepted⟩ := Option.map_eq_some_iff.mp hrun
  obtain ⟨mid, es₁, es₂, run₁, run₂, rfl⟩ := (Machine.run_append_iff _).mp run
  rw [run₁, Option.map_some] at hjournal
  obtain ⟨bytes, hbytes⟩ := Option.isSome_iff_exists.mp (Option.some.inj hjournal)
  obtain ⟨_, _, _, _, _, hkept, _, _⟩ := one_acceptance run₁ run₂
  exact ⟨mid, es₁, final, es₂, bytes, run₁, run₂, haccepted, hbytes, hkept 0 bytes hbytes⟩

end Main

end RustExperiments.Sums
