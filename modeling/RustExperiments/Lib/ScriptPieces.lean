/- module: RustExperiments/Lib/ScriptPieces
   digest: Pieces of a script text that could as well be a quote for all that ends the element. -/

import RustExperiments.Lib.ScriptData

set_option autoImplicit false
set_option relaxedAutoImplicit false

namespace RustExperiments.Lib.ScriptData

/-- No tag and no end of a comment begins in the piece, ends in it or goes through it. -/
def isPiece (piece : List Char) : Bool :=
  piece.head?.any neutral && piece.getLast? != some '-' && piece.all fun c => c != '<' && c != '>'

/-- The first text with quotes in place of some of its pieces is the second one. -/
inductive Quoting : List Char → List Char → Prop where
  | nil : Quoting [] []
  | char {text shown : List Char} (c : Char) (rest : Quoting text shown) :
    Quoting (c :: text) (c :: shown)
  | piece {piece text shown : List Char} (isPiece : isPiece piece = true)
      (rest : Quoting text shown) : Quoting (piece ++ text) ('"' :: shown)

section Pieces

variable {piece : List Char}

theorem isPiece_iff : isPiece piece = true ↔
    (∃ c rest, piece = c :: rest ∧ neutral c = true) ∧ piece.getLast? ≠ some '-' ∧
      ∀ c ∈ piece, c ≠ '<' ∧ c ≠ '>' := by
  cases piece with
  | nil => simp [isPiece]
  | cons c rest => simp [isPiece, and_assoc]

theorem piece_head (h : isPiece piece = true) : ∃ c rest, piece = c :: rest ∧ neutral c = true :=
  (isPiece_iff.mp h).1

theorem piece_inside {before after : List Char} {d : Char}
    (h : isPiece (before ++ d :: after) = true) : d ≠ '<' :=
  ((isPiece_iff.mp h).2.2 d (by simp)).1

theorem piece_open {before after text : List Char} {d : Char}
    (h : isPiece (before ++ d :: after) = true) : ¬ ClosesComment (d :: after ++ text) := by
  obtain ⟨_, hlast, hinside⟩ := isPiece_iff.mp h
  rintro ⟨rest, hrest⟩
  have hfirst : '-' :: '-' :: '>' :: rest = d :: (after ++ text) := hrest
  obtain ⟨rfl, hsecond⟩ := List.cons.inj hfirst
  cases after with
  | nil => exact hlast (by simp)
  | cons e after =>
    rw [List.cons_append] at hsecond
    obtain ⟨rfl, hthird⟩ := List.cons.inj hsecond
    cases after with
    | nil => exact hlast (by simp)
    | cons f after =>
      rw [List.cons_append] at hthird
      obtain ⟨rfl, _⟩ := List.cons.inj hthird
      exact (hinside '>' (by simp)).2 rfl

end Pieces

section Words

variable {word text shown : List Char}

theorem Quoting.front (live : ∀ c ∈ word, neutral c = false) (h : Quoting (word ++ text) shown) :
    ∃ shown', shown = word ++ shown' ∧ Quoting text shown' := by
  induction word generalizing shown with
  | nil => exact ⟨shown, rfl, h⟩
  | cons c word ih =>
    generalize htext : c :: word ++ text = whole at h
    cases h with
    | nil => cases htext
    | char d rest =>
      obtain ⟨rfl, rfl⟩ := List.cons.inj htext
      obtain ⟨shown', rfl, hrest⟩ := ih (fun d hd => live d (List.mem_cons_of_mem c hd)) rest
      exact ⟨shown', rfl, hrest⟩
    | piece hpiece rest =>
      obtain ⟨d, piece', rfl, hneutral⟩ := piece_head hpiece
      obtain ⟨rfl, _⟩ := List.cons.inj htext
      rw [live c List.mem_cons_self] at hneutral
      cases hneutral

theorem Quoting.shown_front (live : ∀ c ∈ word, neutral c = false)
    (h : Quoting text (word ++ shown)) : ∃ text', text = word ++ text' ∧ Quoting text' shown := by
  induction word generalizing text with
  | nil => exact ⟨text, rfl, h⟩
  | cons c word ih =>
    generalize hshown : c :: word ++ shown = whole at h
    cases h with
    | nil => cases hshown
    | char d rest =>
      obtain ⟨rfl, rfl⟩ := List.cons.inj hshown
      obtain ⟨text', rfl, hrest⟩ := ih (fun d hd => live d (List.mem_cons_of_mem c hd)) rest
      exact ⟨text', rfl, hrest⟩
    | piece hpiece rest =>
      obtain ⟨rfl, _⟩ := List.cons.inj hshown
      cases live '"' List.mem_cons_self

theorem live_of_all (h : (word.all fun c => !neutral c) = true) : ∀ c ∈ word, neutral c = false :=
  fun c hc => by simpa using List.all_eq_true.mp h c hc

theorem live_of_toLower {start : List Char} (live : ∀ c ∈ word, neutral c = false)
    (h : start.map Char.toLower = word) : ∀ c ∈ start, neutral c = false := by
  intro c hc
  rcases toLower_cases c with hsame | ⟨halpha, _⟩
  · exact live c (h ▸ hsame ▸ List.mem_map_of_mem hc)
  · rw [neutral, halpha]
    rfl

theorem live_of_endsName {c : Char} (h : endsName c = true) : neutral c = false := by
  simp [neutral, h]

theorem begins_iff (live : ∀ c ∈ word, neutral c = false) (h : Quoting text shown) :
    Begins word text ↔ Begins word shown := by
  constructor
  · rintro ⟨start, rest, rfl, hstart⟩
    obtain ⟨shown', rfl, _⟩ := h.front (live_of_toLower live hstart)
    exact ⟨start, shown', rfl, hstart⟩
  · rintro ⟨start, rest, rfl, hstart⟩
    obtain ⟨text', rfl, _⟩ := h.shown_front (live_of_toLower live hstart)
    exact ⟨start, text', rfl, hstart⟩

theorem beginsTag_iff (live : ∀ c ∈ word, neutral c = false) (h : Quoting text shown) :
    BeginsTag word text ↔ BeginsTag word shown := by
  have hlive : ∀ {start : List Char} {c : Char}, start.map Char.toLower = word →
      endsName c = true → ∀ d ∈ start ++ [c], neutral d = false := by
    intro start c hstart hends d hd
    rcases List.mem_append.mp hd with hd | hd
    · exact live_of_toLower live hstart d hd
    · exact List.mem_singleton.mp hd ▸ live_of_endsName hends
  constructor
  · rintro ⟨start, c, rest, rfl, hstart, hends⟩
    rw [List.append_cons] at h
    obtain ⟨shown', rfl, _⟩ := h.front (hlive hstart hends)
    exact ⟨start, c, shown', (List.append_cons start c shown').symm, hstart, hends⟩
  · rintro ⟨start, c, rest, rfl, hstart, hends⟩
    rw [List.append_cons] at h
    obtain ⟨text', rfl, _⟩ := h.shown_front (hlive hstart hends)
    exact ⟨start, c, text', (List.append_cons start c text').symm, hstart, hends⟩

theorem closesComment_iff (h : Quoting text shown) : ClosesComment text ↔ ClosesComment shown := by
  constructor
  · rintro ⟨rest, rfl⟩
    obtain ⟨shown', rfl, _⟩ := h.front (live_of_all (by decide))
    exact ⟨shown', rfl⟩
  · rintro ⟨rest, rfl⟩
    obtain ⟨text', rfl, _⟩ := h.shown_front (live_of_all (by decide))
    exact ⟨text', rfl⟩

end Words

section Occurrences

variable {p : List Char → Prop} {text shown : List Char}

theorem occurs_iff (front : ∀ {text shown}, Quoting text shown → (p text ↔ p shown))
    (within : ∀ {before after text d}, isPiece (before ++ d :: after) = true →
      ¬ p (d :: after ++ text))
    (quote : ∀ text, ¬ p ('"' :: text)) (h : Quoting text shown) :
    Occurs p text ↔ Occurs p shown := by
  induction h with
  | nil => rfl
  | char c rest ih => rw [occurs_cons, occurs_cons, front (rest.char c), ih]
  | piece hpiece rest ih =>
    rw [occurs_append_of_not fun before d after heq => within (heq ▸ hpiece),
      occurs_cons_of_not (quote _), ih]

theorem occurs_begins_iff (h : Quoting text shown) :
    Occurs (Begins endTag) text ↔ Occurs (Begins endTag) shown := by
  have hlive : ∀ c ∈ endTag, neutral c = false := live_of_all (by decide)
  refine occurs_iff (begins_iff hlive) (fun hpiece hbegins => ?_) (fun _ hbegins => ?_) h
  · exact piece_inside hpiece (begins_head (by decide) hbegins)
  · cases begins_head (by decide) hbegins

theorem occurs_beginsTag_iff (h : Quoting text shown) :
    Occurs (BeginsTag startTag) text ↔ Occurs (BeginsTag startTag) shown := by
  have hlive : ∀ c ∈ startTag, neutral c = false := live_of_all (by decide)
  refine occurs_iff (beginsTag_iff hlive) (fun hpiece htag => ?_) (fun _ htag => ?_) h
  · exact piece_inside hpiece (begins_head (by decide) htag.begins)
  · cases begins_head (by decide) htag.begins

theorem occurs_closesComment_iff (h : Quoting text shown) :
    Occurs ClosesComment text ↔ Occurs ClosesComment shown :=
  occurs_iff closesComment_iff piece_open (fun _ => not_closesComment (by decide)) h

theorem opensComment_iff (h : Quoting text shown) : OpensComment text ↔ OpensComment shown := by
  constructor
  · rintro ⟨rest, rfl, htag, hunclosed⟩
    obtain ⟨shown', rfl, hrest⟩ := h.front (live_of_all (by decide))
    exact ⟨shown', rfl, (occurs_beginsTag_iff hrest).mp htag,
      (occurs_closesComment_iff ((hrest.char '-').char '-')).not.mp hunclosed⟩
  · rintro ⟨rest, rfl, htag, hunclosed⟩
    obtain ⟨text', rfl, hrest⟩ := h.shown_front (live_of_all (by decide))
    exact ⟨text', rfl, (occurs_beginsTag_iff hrest).mpr htag,
      (occurs_closesComment_iff ((hrest.char '-').char '-')).not.mpr hunclosed⟩

theorem leavesOpen_iff (h : Quoting text shown) : LeavesOpen text ↔ LeavesOpen shown := by
  refine occurs_iff opensComment_iff (fun hpiece hopens => ?_) (fun _ => ?_) h
  · exact not_opensComment_of_ne (piece_inside hpiece) hopens
  · exact not_opensComment_of_ne (by decide)

end Occurrences

end RustExperiments.Lib.ScriptData
