/- module: RustExperiments/Sums/Page
   digest: Which identifiers the page of the journal can show without ending its script element. -/

import RustExperiments.Http.JsonHtml
import RustExperiments.Sums.Acceptance

set_option autoImplicit false
set_option relaxedAutoImplicit false

namespace RustExperiments.Sums

open RustExperiments.Lib RustExperiments.Lib.ScriptData RustExperiments.Http

section Serialization

/-- The `JSONResponse`, with the name of its variant in front. -/
def JsonResponse.toJson : JsonResponse → List Char
  | .counters counterRuns counterRequests =>
    Json.writeObject [("type", .string "Counters"), ("counter_runs", .int counterRuns),
      ("counter_requests", .int counterRequests)]
  | .stringCounter value =>
    Json.writeObject [("type", .string "StringCounter"), ("value", .string value)]
  | .journal entries =>
    '{' :: (Json.quote "type" ++ ':' :: Json.quote "Journal") ++ ',' :: (Json.quote "entries" ++
      ':' :: Json.writeArray (entries.map fun entry => Json.writeObject entry.fields)) ++ ['}']

example : (JsonResponse.journal [⟨"foo", 1, -2, -1, 7⟩]).toJson =
    "\x7b\"type\":\"Journal\",\"entries\":[".toList ++
      "\x7b\"id\":\"foo\",\"a\":1,\"b\":-2,\"c\":-1,\"timestamp_us\":7\x7d]\x7d".toList := by
  decide +kernel

def shownChar (c : Char) : Char := if c = '\\' ∨ c.toNat < 32 then '"' else c

/-- The identifiers in their order, each with a quote behind it. -/
def shownText (ids : List String) : List Char :=
  ids.flatMap fun id => id.toList.map shownChar ++ ['"']

theorem shownText_cons (id : String) (ids : List String) :
    shownText (id :: ids) = id.toList.map shownChar ++ '"' :: shownText ids := by
  rw [shownText, List.flatMap_cons, List.append_assoc]
  rfl

/-- The identifiers have no `</script` in any letter case, and no `<!--` that is followed by a
start tag `<script` and not by `-->`. -/
def Harmless (ids : List String) : Prop :=
  ¬ Occurs (Begins endTag) (shownText ids) ∧ ¬ LeavesOpen (shownText ids)

def entryHead : List Char := '{' :: (Json.quote "id" ++ [':', '"'])

def JournalEntry.tail (entry : JournalEntry) : List Char :=
  '"' :: Json.writeFields ',' [("a", .int entry.a.toInt), ("b", .int entry.b.toInt),
    ("c", .int entry.c.toInt), ("timestamp_us", .int entry.timestampUs)]

theorem writeObject_fields (entry : JournalEntry) : Json.writeObject entry.fields =
    entryHead ++ (Json.escape entry.id.toList ++ entry.tail) := by
  simp [Json.writeObject, JournalEntry.fields, Json.writeFields, Json.Scalar.write, Json.quote,
    entryHead, JournalEntry.tail]

theorem escapeChar_cases (c : Char) : Json.escapeChar c = [c] ∧ shownChar c = c ∨
    isPiece (Json.escapeChar c) = true ∧ shownChar c = '"' := by
  have hcontrol : ∀ n < 32, isPiece (Json.escapeControl n) = true := by decide
  unfold Json.escapeChar
  split_ifs with hquote hslash hb ht hn hf hr hlow
  · subst hquote
    exact Or.inr ⟨by decide, rfl⟩
  · subst hslash
    exact Or.inr ⟨by decide, rfl⟩
  · subst hb
    exact Or.inr ⟨by decide, rfl⟩
  · subst ht
    exact Or.inr ⟨by decide, rfl⟩
  · subst hn
    exact Or.inr ⟨by decide, rfl⟩
  · subst hf
    exact Or.inr ⟨by decide, rfl⟩
  · subst hr
    exact Or.inr ⟨by decide, rfl⟩
  · exact Or.inr ⟨hcontrol c.toNat hlow, if_pos (Or.inr hlow)⟩
  · exact Or.inl ⟨rfl, if_neg (not_or.mpr ⟨hslash, hlow⟩)⟩

variable {text shown : List Char}

theorem quoting_escape (s : List Char) (rest : Quoting text shown) :
    Quoting (Json.escape s ++ text) (s.map shownChar ++ shown) := by
  induction s with
  | nil => exact rest
  | cons c s ih =>
    rw [Json.escape, List.flatMap_cons, List.append_assoc, ← Json.escape, List.map_cons,
      List.cons_append]
    rcases escapeChar_cases c with ⟨hplain, hshown⟩ | ⟨hpiece, hshown⟩
    · rw [hplain, hshown]
      exact ih.char c
    · rw [hshown]
      exact ih.piece hpiece

/-- No `<` and no `>`. -/
def Calm (text : List Char) : Prop := ∀ c ∈ text, c ≠ '<' ∧ c ≠ '>'

theorem calm_of_all {text : List Char} (h : (text.all fun c => c != '<' && c != '>') = true) :
    Calm text :=
  fun c hc => by simpa using List.all_eq_true.mp h c hc

theorem calm_nat (n : ℕ) : Calm (toString n).toList := by
  intro c hc
  rw [toString_toList] at hc
  have hdigit := Nat.isDigit_of_mem_toDigits (by decide) (by decide) hc
  constructor
  · rintro rfl
    cases hdigit
  · rintro rfl
    cases hdigit

theorem calm_int (i : ℤ) : Calm (Json.Scalar.int i).write := by
  cases i with
  | ofNat n => exact calm_nat n
  | negSucc n =>
    rw [Json.Scalar.write, Json.toString_negSucc]
    exact List.forall_mem_cons.mpr ⟨by decide, calm_nat (n + 1)⟩

theorem calm_fields {separator : Char} (hseparator : separator ≠ '<' ∧ separator ≠ '>')
    (fields : List (String × ℤ)) (keys : ∀ key ∈ fields.map Prod.fst, Calm (Json.quote key)) :
    Calm (Json.writeFields separator (fields.map fun field => (field.1, .int field.2))) := by
  induction fields generalizing separator with
  | nil => exact List.forall_mem_singleton.mpr (by decide)
  | cons field fields ih =>
    obtain ⟨hkey, hkeys⟩ := List.forall_mem_cons.mp keys
    have hrest : Calm (Json.writeFields ',' (fields.map fun field => (field.1, .int field.2))) :=
      ih (by decide) hkeys
    refine List.forall_mem_cons.mpr ⟨hseparator, List.forall_mem_append.mpr ⟨hkey, ?_⟩⟩
    exact List.forall_mem_cons.mpr
      ⟨by decide, List.forall_mem_append.mpr ⟨calm_int field.2, hrest⟩⟩

theorem calm_tail (entry : JournalEntry) : Calm entry.tail := by
  have hall : (["a", "b", "c", "timestamp_us"].all fun key =>
      (Json.quote key).all fun c => c != '<' && c != '>') = true := by
    decide +kernel
  have hkeys : ∀ key ∈ ["a", "b", "c", "timestamp_us"], Calm (Json.quote key) := fun key hkey =>
    calm_of_all (List.all_eq_true.mp hall key hkey)
  refine List.forall_mem_cons.mpr ⟨by decide, ?_⟩
  exact calm_fields (by decide) [("a", entry.a.toInt), ("b", entry.b.toInt), ("c", entry.c.toInt),
    ("timestamp_us", entry.timestampUs)] hkeys

theorem isPiece_tail (entry : JournalEntry) {c : Char} {more : List Char} (calm : Calm (c :: more))
    (last : (c :: more).getLast? ≠ some '-') : isPiece (entry.tail ++ c :: more) = true := by
  refine isPiece_iff.mpr ⟨⟨'"', _, rfl, rfl⟩, ?_, ?_⟩
  · rwa [List.getLast?_append_of_ne_nil _ (List.cons_ne_nil c more)]
  · exact List.forall_mem_append.mpr ⟨calm_tail entry, calm⟩

def textBehind (entry : JournalEntry) (entries : List JournalEntry) : List Char :=
  entry.tail ++ (entries.flatMap (fun entry => ',' :: Json.writeObject entry.fields) ++ [']', '}'])

theorem quoting_behind (entry : JournalEntry) (entries : List JournalEntry) :
    Quoting (textBehind entry entries) ('"' :: shownText (entries.map (·.id))) := by
  induction entries generalizing entry with
  | nil =>
    have hpiece : isPiece (entry.tail ++ [']', '}']) = true :=
      isPiece_tail entry (calm_of_all (by decide)) (by decide)
    have hquoting := Quoting.nil.piece hpiece
    rwa [List.append_nil] at hquoting
  | cons next entries ih =>
    have hpiece : isPiece (entry.tail ++ ',' :: entryHead) = true :=
      isPiece_tail entry (calm_of_all (by decide +kernel)) (by decide +kernel)
    have hquoting := (quoting_escape next.id.toList (ih next)).piece hpiece
    have htext : textBehind entry (next :: entries) = entry.tail ++ ',' :: entryHead ++
        (Json.escape next.id.toList ++ textBehind next entries) := by
      simp [textBehind, writeObject_fields]
    rw [htext, List.map_cons, shownText_cons]
    exact hquoting

theorem quoting_journal (entries : List JournalEntry) :
    Quoting (JsonResponse.journal entries).toJson ('"' :: shownText (entries.map (·.id))) := by
  cases entries with
  | nil =>
    have hpiece : isPiece (JsonResponse.journal []).toJson = true := by decide +kernel
    have hquoting := Quoting.nil.piece hpiece
    rwa [List.append_nil] at hquoting
  | cons entry entries =>
    have hpiece : isPiece ('{' :: (Json.quote "type" ++ ':' :: Json.quote "Journal") ++ ',' ::
        (Json.quote "entries" ++ ':' :: '[' :: entryHead)) = true := by
      decide +kernel
    have hquoting := (quoting_escape entry.id.toList (quoting_behind entry entries)).piece hpiece
    have htext : (JsonResponse.journal (entry :: entries)).toJson = '{' :: (Json.quote "type" ++
        ':' :: Json.quote "Journal") ++ ',' :: (Json.quote "entries" ++ ':' :: '[' :: entryHead) ++
        (Json.escape entry.id.toList ++ textBehind entry entries) := by
      simp [JsonResponse.toJson, Json.writeArray, writeObject_fields, textBehind, List.flatMap_map]
    rw [htext, List.map_cons, shownText_cons]
    exact hquoting

theorem jsonOrHtml_html {accept : List (List UInt8)} (html : acceptHeaderContainsTextHtml accept)
    (json : List Char) : (jsonOrHtml accept json).body = DataHtmlTemplate.render json := by
  rw [jsonOrHtml, if_pos html]

theorem intact_iff_harmless (entries : List JournalEntry) :
    Intact (JsonResponse.journal entries).toJson
      (DataHtmlTemplate.render (JsonResponse.journal entries).toJson) ↔
    Harmless (entries.map (·.id)) := by
  have hquoting := quoting_journal entries
  have hbegins : ¬ Begins endTag ('"' :: shownText (entries.map (·.id))) := fun h =>
    absurd (begins_head (by decide) h) (by decide)
  have hopens : ¬ OpensComment ('"' :: shownText (entries.map (·.id))) :=
    not_opensComment_of_ne (by decide)
  rw [intact_iff, Harmless, occurs_begins_iff hquoting, leavesOpen_iff hquoting, LeavesOpen,
    LeavesOpen, occurs_cons_of_not hbegins, occurs_cons_of_not hopens]

theorem harmless_of_not_mem {ids : List String} (h : '<' ∉ shownText ids) : Harmless ids := by
  have hnone : ∀ {p : List Char → Prop}, (∀ c text, p (c :: text) → c = '<') → ¬ p [] →
      ¬ Occurs p (shownText ids) := by
    intro p hp hnil hoccurs
    rw [← List.append_nil (shownText ids), occurs_append_of_not, occurs_nil] at hoccurs
    · exact hnil hoccurs
    · intro before d after heq hd
      refine h ?_
      rw [heq, ← hp d _ hd]
      simp
  constructor
  · refine hnone (fun c text hbegins => begins_head (by decide) hbegins) ?_
    rintro ⟨start, rest, hnil, hstart⟩
    obtain ⟨rfl, _⟩ := List.append_eq_nil_iff.mp hnil.symm
    cases hstart
  · refine hnone (fun c text hopens => ?_) fun hopens => ?_
    · by_contra hne
      exact not_opensComment_of_ne hne hopens
    · obtain ⟨rest, hrest⟩ := hopens.starts
      cases hrest

end Serialization

section Reads

open Session

variable {crates : Crates} {checks : Bool} {db db' : SumsDb}

theorem collectJournal_decodes {journal : Table ℕ String} {remaining i : ℕ}
    {result entries : List JournalEntry}
    (h : (collectJournal crates journal remaining i result).Ends db (.ok entries) db') :
    ∀ entry ∈ entries, entry ∈ result ∨
      ∃ k bytes, journal.lookup k = some bytes ∧ crates.entryFromSlice bytes = .ok entry := by
  induction remaining generalizing i result with
  | zero =>
    obtain ⟨hr, _⟩ := ends_pure h
    cases hr
    exact fun entry hentry => Or.inl hentry
  | succ remaining ih =>
    rcases ends_op_bind h with ⟨_, _, hr⟩ | h
    · cases hr
    cases hbytes : journal.lookup i with
    | none => exact ih (by simpa [hbytes] using h)
    | some bytes =>
      cases hdecoded : crates.entryFromSlice bytes with
      | error e => exact ih (by simpa [hbytes, hdecoded] using h)
      | ok decoded =>
        intro entry hentry
        rcases ih (by simpa [hbytes, hdecoded] using h) entry hentry with hold | hfound
        · rcases List.mem_append.mp hold with hold | hnew
          · exact Or.inl hold
          · rw [List.mem_singleton.mp hnew]
            exact Or.inr ⟨i, bytes, hbytes, hdecoded⟩
        · exact Or.inr hfound

theorem getJournal_decodes {n : ℕ} {entries : List JournalEntry}
    (h : (handleGetJournal crates n).Ends db (.ok entries) db') :
    ∀ entry ∈ entries, ∃ k bytes, db.journal k = some bytes ∧
      crates.entryFromSlice bytes = .ok entry := by
  rcases ends_begin_bind h with ⟨_, _, hr⟩ | h
  · cases hr
  rcases openExisting_bind h with ⟨_, _, hr⟩ | ⟨journalMeta, _, h⟩
  · cases hr
  rcases openExisting_bind h with ⟨_, _, hr⟩ | ⟨journal, hjournal, h⟩
  · cases hr
  rcases ends_op_bind h with ⟨_, _, hr⟩ | h
  · cases hr
  intro entry hentry
  rcases collectJournal_decodes h entry hentry with hnil | ⟨k, bytes, hk, hdecoded⟩
  · cases hnil
  · refine ⟨k, bytes, ?_, hdecoded⟩
    rw [SumsDb.journal, hjournal]
    exact hk

theorem perform_decodes {n : ℕ} {env : Env} {s : Service SumsDb} {entries : List JournalEntry}
    (answered : (perform crates checks (.run (.getJournal n)) env s).1 = .ok entries) :
    ∀ entry ∈ entries, ∃ k bytes, s.db.journal k = some bytes ∧
      crates.entryFromSlice bytes = .ok entry := by
  have hserve : (s.serve (handleGetJournal crates n) env.faults).1 = .ok entries := answered
  rcases Service.serve_ends (handleGetJournal crates n) env.faults s with
    ⟨v, hok, hends⟩ | ⟨message, herror, _⟩
  · rw [hserve] at hok
    cases hok
    exact getJournal_decodes hends
  · rw [hserve] at herror
    cases herror

end Reads

section Runs

variable {crates : Crates} {checks : Bool} {es : List SumsEvent}

/-- The entry of a request that was accepted. -/
def OfAccepted (crates : Crates) (es : List SumsEvent) (entry : JournalEntry) : Prop :=
  ∃ i req micros, entry = req.entry micros ∧ Accepted crates es i req

def ReadsAccepted (crates : Crates) (es : List SumsEvent) : Prop :=
  ∀ i n entries, .performed i (.run (.getJournal n)) (.ok entries) ∈ es →
    ∀ entry ∈ entries, OfAccepted crates es entry

theorem ReadsAccepted.concat (h : ReadsAccepted crates es) {e : SumsEvent}
    (new : ∀ i n entries, e = .performed i (.run (.getJournal n)) (.ok entries) →
      ∀ entry ∈ entries, OfAccepted crates es entry) : ReadsAccepted crates (es ++ [e]) := by
  intro i n entries hmem entry hentry
  have haccepted : OfAccepted crates es entry := by
    rcases List.mem_append.mp hmem with hold | hnew
    · exact h i n entries hold entry hentry
    · exact new i n entries (List.mem_singleton.mp hnew).symm entry hentry
  obtain ⟨j, req, micros, rfl, hreq⟩ := haccepted
  exact ⟨j, req, micros, rfl, hreq.append _⟩

theorem readsAccepted_preserved (crates : Crates) (checks : Bool) :
    (sums crates checks).Preserved (sumsProtocol checks) Submission.Returns (.start crates)
      fun es s Γ => Accepting crates es s.db Γ ∧ ReadsAccepted crates es where
  obeys := task_obeys crates checks
  spawn i t h hnone hunspawned :=
    ⟨(accepting_preserved crates checks).spawn i t h.1 hnone hunspawned,
      h.2.concat fun _ _ _ heq => by cases heq⟩
  perform {es s Γ} i g q env h live allowed := by
    refine ⟨(accepting_preserved crates checks).perform i g q env h.1 live allowed,
      h.2.concat fun j n entries heq => ?_⟩
    obtain ⟨rfl, rfl, hanswer⟩ := ClientEvent.performed.inj heq
    intro entry hentry
    obtain ⟨k, bytes, hk, hdecoded⟩ := perform_decodes (eq_of_heq hanswer) entry hentry
    obtain ⟨j, req, micros, rfl, haccepted⟩ := h.1.journal k bytes hk
    rw [crates.entryFromSlice_toVec] at hdecoded
    exact ⟨j, req, micros, (Except.ok.inj hdecoded).symm, haccepted⟩
  returned i g o h live returns :=
    ⟨(accepting_preserved crates checks).returned i g o h.1 live returns,
      h.2.concat fun _ _ _ heq => by cases heq⟩
  drop i h := ⟨(accepting_preserved crates checks).drop i h.1, h.2⟩
  restart env h := ⟨(accepting_preserved crates checks).restart env h.1, h.2⟩

/-- How far the handler of `GET /journal` has come. -/
inductive Reader where
  | reading
  | shown (entries : List JournalEntry)
  | other

def Reader.next : Reader → (q : Await) → Answer q → Reader
  | .reading, .run (.getJournal _), .ok entries => .shown entries
  | .reading, .run (.getJournal _), .error _ => .shown []
  | g, _, _ => g

def readerProtocol : Proc.Protocol Await Answer Reader where
  allows
    | .reading, q => ∃ n, q = .run (.getJournal n)
    | .shown _, _ => False
    | .other, _ => True
  next := Reader.next

def Reader.Returns : Reader → Outcome → Prop
  | .reading, _ => False
  | .shown entries, o => o = .json (.journal entries)
  | .other, _ => True

def Reader.start : Task → Reader
  | .journal _ => .reading
  | _ => .other

theorem other_obeys (p : Proc Await Answer Outcome) :
    p.Obeys readerProtocol Reader.Returns .other := by
  induction p with
  | ret o => exact .ret trivial
  | await q k ih => exact .await trivial ih

theorem task_obeys_reader (crates : Crates) (checks : Bool) (task : Task) :
    (task.start crates checks).Obeys readerProtocol Reader.Returns (.start task) := by
  cases task with
  | journal n =>
    refine .await ⟨_, rfl⟩ fun answer => ?_
    cases answer <;> exact .ret rfl
  | _ => exact other_obeys _

theorem read_of_path {answers : List (Σ q, Answer q)} {g : Reader} {entries : List JournalEntry}
    (path : readerProtocol.Path .reading answers g)
    (returns : g.Returns (.json (.journal entries))) :
    entries = [] ∨ ∃ n, ⟨.run (.getJournal n), .ok entries⟩ ∈ answers := by
  cases path with
  | nil => exact returns.elim
  | @cons _ _ q a _ allowed rest =>
    obtain ⟨n, rfl⟩ := allowed
    cases a with
    | error e =>
      obtain ⟨_, rfl⟩ := rest.of_final fun q h => h
      cases returns
      exact Or.inl rfl
    | ok read =>
      obtain ⟨_, rfl⟩ := rest.of_final fun q h => h
      cases returns
      exact Or.inr ⟨n, List.mem_cons_self⟩

/-- In every run of any number of concurrent requests to any of the routes: the entries that a
`GET /journal` shows are those of accepted POSTs, and its page is intact for a client that accepts
HTML if and only if the identifiers are harmless. -/
theorem journal_page_intact_iff {crates : Crates} {checks : Bool}
    {inputs : List (ClientInput Task Env)}
    {s : Clients.State Await Answer Outcome (Service SumsDb)} {es : List SumsEvent}
    (run : (sums crates checks).machine.run (.initial (first crates checks)) inputs = some (s, es))
    {i : ℕ} {n : Option ℕ} {entries : List JournalEntry} (asked : .spawned i (.journal n) ∈ es)
    (returned : .returned i (.json (.journal entries)) ∈ es) :
    (∀ entry ∈ entries, ∃ j req micros, entry = req.entry micros ∧ Accepted crates es j req) ∧
    ∀ accept, acceptHeaderContainsTextHtml accept = true →
      (Intact (JsonResponse.journal entries).toJson
        (jsonOrHtml accept (JsonResponse.journal entries).toJson).body ↔
        Harmless (entries.map (·.id))) := by
  constructor
  · obtain ⟨hprocessed, hjournal, _⟩ := first_empty crates checks
    obtain ⟨Γ, hghosted⟩ := Clients.invariant (readsAccepted_preserved crates checks)
      ⟨.initial hprocessed hjournal, fun _ _ _ h => by cases h⟩ run
    obtain ⟨g, htold⟩ := Clients.told_of_run (task_obeys_reader crates checks) run asked
    rcases read_of_path htold.path (htold.returned _ returned) with rfl | ⟨m, hmem⟩
    · exact fun _ h => by cases h
    · exact hghosted.inv.2 i m entries (Clients.performed_of_mem hmem)
  · intro accept html
    rw [jsonOrHtml_html html]
    exact intact_iff_harmless entries

end Runs

section Examples

def postedAndRead (body : List UInt8) : List (ClientInput Task Env) :=
  [.spawn (.sums body), .perform 0 (.at 1), .deliver 0, .perform 0 (.at 2), .deliver 0,
    .perform 0 (.at 3), .deliver 0, .spawn (.journal none), .perform 1 (.at 4), .deliver 1]

def shownJournal : SumsEvent → Option (List JournalEntry)
  | .returned 1 (.json (.journal entries)) => some entries
  | _ => none

def asksForJournal : SumsEvent → Bool
  | .spawned 1 (.journal none) => true
  | _ => false

theorem shown_of_run (body : List UInt8) (entries : List JournalEntry)
    (h : ((sums asciiJson true).machine.run (.initial (first asciiJson true))
      (postedAndRead body)).map (fun r => ((r.2.filterMap shownJournal).contains entries,
        r.2.any asksForJournal)) = some (true, true)) :
    ∃ s es, (sums asciiJson true).machine.run (.initial (first asciiJson true))
        (postedAndRead body) = some (s, es) ∧
      .spawned 1 (.journal none) ∈ es ∧ .returned 1 (.json (.journal entries)) ∈ es := by
  obtain ⟨⟨s, es⟩, run, hvalues⟩ := Option.map_eq_some_iff.mp h
  obtain ⟨hshown, hasked⟩ := Prod.mk.inj hvalues
  refine ⟨s, es, run, ?_, ?_⟩
  · obtain ⟨e, he, hasks⟩ := List.any_eq_true.mp hasked
    unfold asksForJournal at hasks
    split at hasks
    · exact he
    · cases hasks
  · obtain ⟨e, he, hentries⟩ := List.mem_filterMap.mp (List.contains_iff_mem.mp hshown)
    unfold shownJournal at hentries
    split at hentries
    · cases hentries
      exact he
    · cases hentries

theorem foobar_shown : ∃ s es,
    (sums asciiJson true).machine.run (.initial (first asciiJson true)) (postedAndRead
      (bodyOf "\x7b\"id\":\"foobar\",\"a\":2,\"b\":3,\"c\":5\x7d")) = some (s, es) ∧
    .returned 1 (.json (.journal [⟨"foobar", 2, 3, 5, 2⟩])) ∈ es ∧
    Intact (JsonResponse.journal [⟨"foobar", 2, 3, 5, 2⟩]).toJson
      (jsonOrHtml [bytesOf "text/html"]
        (JsonResponse.journal [⟨"foobar", 2, 3, 5, 2⟩]).toJson).body := by
  obtain ⟨s, es, run, asked, returned⟩ := shown_of_run
    (bodyOf "\x7b\"id\":\"foobar\",\"a\":2,\"b\":3,\"c\":5\x7d")
    [⟨"foobar", 2, 3, 5, 2⟩] (by decide +kernel)
  have hharmless : Harmless ["foobar"] := harmless_of_not_mem (by decide +kernel)
  exact ⟨s, es, run, returned,
    ((journal_page_intact_iff run asked returned).2 _ (by decide +kernel)).mpr hharmless⟩

def scriptEntry : JournalEntry := ⟨"</script><script>alert(1)//", 2, 3, 5, 2⟩

/-- The identifier is accepted, and the page that is shown to the next reader ends its script
element in the middle of it. -/
theorem script_shown : ∃ s es,
    (sums asciiJson true).machine.run (.initial (first asciiJson true)) (postedAndRead
      (bodyOf "\x7b\"id\":\"</script><script>alert(1)//\",\"a\":2,\"b\":3,\"c\":5\x7d")) =
        some (s, es) ∧
    .returned 1 (.json (.journal [scriptEntry])) ∈ es ∧
    scriptEnd .data ((jsonOrHtml [bytesOf "text/html"]
        (JsonResponse.journal [scriptEntry]).toJson).body.drop pageHead.length) =
      some (45 + scriptHead.length) ∧
    ¬ Intact (JsonResponse.journal [scriptEntry]).toJson
      (jsonOrHtml [bytesOf "text/html"] (JsonResponse.journal [scriptEntry]).toJson).body := by
  obtain ⟨s, es, run, _, returned⟩ := shown_of_run
    (bodyOf "\x7b\"id\":\"</script><script>alert(1)//\",\"a\":2,\"b\":3,\"c\":5\x7d")
    [scriptEntry] (by decide +kernel)
  have hhtml : acceptHeaderContainsTextHtml [bytesOf "text/html"] = true := by decide +kernel
  refine ⟨s, es, run, returned, ?_, ?_⟩
  · rw [jsonOrHtml_html hhtml]
    exact scriptEnd_early (by decide +kernel)
  · rw [jsonOrHtml_html hhtml, intact_iff_harmless]
    exact fun h => h.1 ⟨_, List.suffix_rfl, "</script".toList, _, rfl, by decide +kernel⟩

end Examples

end RustExperiments.Sums
