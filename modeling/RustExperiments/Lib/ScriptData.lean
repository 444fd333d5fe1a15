/- module: RustExperiments/Lib/ScriptData
   digest: Which texts leave a script element open, for an HTML parser that reads it. -/

import Mathlib.Data.List.Infix
import Mathlib.Tactic.SplitIfs

set_option autoImplicit false
set_option relaxedAutoImplicit false

namespace RustExperiments.Lib.ScriptData

/-- The tokenizer states of a script element, under the names of the HTML standard without
`script data` in front. Names of tags are kept in lower case. -/
inductive State where
  | data
  | lessThan
  | endTagOpen
  | endTagName (name : List Char)
  | escapeStart
  | escapeStartDash
  | escaped
  | escapedDash
  | escapedDashDash
  | escapedLessThan
  | escapedEndTagOpen
  | escapedEndTagName (name : List Char)
  | doubleEscapeStart (name : List Char)
  | doubleEscaped
  | doubleEscapedDash
  | doubleEscapedDashDash
  | doubleEscapedLessThan
  | doubleEscapeEnd (name : List Char)
  /-- the name of the end tag has been read -/
  | ended
  deriving DecidableEq, Repr

def script : List Char := ['s', 'c', 'r', 'i', 'p', 't']

/-- White space, `/` and `>` end the name of a tag. -/
def endsName (c : Char) : Bool :=
  c == '\t' || c == '\n' || c == '\x0c' || c == ' ' || c == '/' || c == '>'

def inData (c : Char) : State := if c = '<' then .lessThan else .data

def inEscaped (c : Char) : State :=
  if c = '-' then .escapedDash else if c = '<' then .escapedLessThan else .escaped

def inDoubleEscaped (c : Char) : State :=
  if c = '-' then .doubleEscapedDash else if c = '<' then .doubleEscapedLessThan else .doubleEscaped

/-- What a state does not name is consumed again in the state that it goes back to. -/
def State.next : State → Char → State
  | .data, c => inData c
  | .lessThan, c =>
    if c = '/' then .endTagOpen else if c = '!' then .escapeStart else inData c
  | .endTagOpen, c => if c.isAlpha then .endTagName [c.toLower] else inData c
  | .endTagName name, c =>
    if c.isAlpha then .endTagName (name ++ [c.toLower])
    else if endsName c ∧ name = script then .ended else inData c
  | .escapeStart, c => if c = '-' then .escapeStartDash else inData c
  | .escapeStartDash, c => if c = '-' then .escapedDashDash else inData c
  | .escaped, c => inEscaped c
  | .escapedDash, c => if c = '-' then .escapedDashDash else inEscaped c
  | .escapedDashDash, c =>
    if c = '-' then .escapedDashDash else if c = '>' then .data else inEscaped c
  | .escapedLessThan, c =>
    if c = '/' then .escapedEndTagOpen
    else if c.isAlpha then .doubleEscapeStart [c.toLower] else inEscaped c
  | .escapedEndTagOpen, c => if c.isAlpha then .escapedEndTagName [c.toLower] else inEscaped c
  | .escapedEndTagName name, c =>
    if c.isAlpha then .escapedEndTagName (name ++ [c.toLower])
    else if endsName c ∧ name = script then .ended else inEscaped c
  | .doubleEscapeStart name, c =>
    if c.isAlpha then .doubleEscapeStart (name ++ [c.toLower])
    else if endsName c then (if name = script then .doubleEscaped else .escaped)
    else inEscaped c
  | .doubleEscaped, c => inDoubleEscaped c
  | .doubleEscapedDash, c => if c = '-' then .doubleEscapedDashDash else inDoubleEscaped c
  | .doubleEscapedDashDash, c =>
    if c = '-' then .doubleEscapedDashDash else if c = '>' then .data else inDoubleEscaped c
  | .doubleEscapedLessThan, c => if c = '/' then .doubleEscapeEnd [] else inDoubleEscaped c
  | .doubleEscapeEnd name, c =>
    if c.isAlpha then .doubleEscapeEnd (name ++ [c.toLower])
    else if endsName c then (if name = script then .escaped else .doubleEscaped)
    else inDoubleEscaped c
  | .ended, _ => .ended

def run (s : State) (text : List Char) : State := text.foldl State.next s

@[simp] theorem run_nil (s : State) : run s [] = s := rfl

@[simp] theorem run_cons (s : State) (c : Char) (text : List Char) :
    run s (c :: text) = run (s.next c) text := rfl

theorem run_append (s : State) (xs ys : List Char) : run s (xs ++ ys) = run (run s xs) ys :=
  List.foldl_append

theorem run_ended (text : List Char) : run .ended text = .ended := by
  induction text with
  | nil => rfl
  | cons c text ih => exact ih

/-- How many characters of the text are read up to the end of the end tag's name. -/
def scriptEnd : State → List Char → Option ℕ
  | _, [] => none
  | s, c :: text =>
    if s.next c = .ended then some 1 else (scriptEnd (s.next c) text).map (· + 1)

theorem scriptEnd_append {s : State} {xs : List Char} (h : run s xs ≠ .ended) (ys : List Char) :
    scriptEnd s (xs ++ ys) = (scriptEnd (run s xs) ys).map (· + xs.length) := by
  induction xs generalizing s with
  | nil => simp
  | cons c xs ih =>
    have hne : s.next c ≠ .ended := by
      intro hended
      rw [run_cons, hended, run_ended] at h
      exact h rfl
    rw [List.cons_append, scriptEnd, if_neg hne, ih h, Option.map_map, run_cons]
    rfl

theorem scriptEnd_append_of_some {s : State} {xs : List Char} {n : ℕ} (h : scriptEnd s xs = some n)
    (ys : List Char) : scriptEnd s (xs ++ ys) = some n := by
  induction xs generalizing s n with
  | nil => cases h
  | cons c xs ih =>
    rw [scriptEnd] at h
    rw [List.cons_append, scriptEnd]
    split_ifs at h ⊢
    · exact h
    · obtain ⟨m, hm, rfl⟩ := Option.map_eq_some_iff.mp h
      rw [ih hm, Option.map_some]

theorem scriptEnd_pos {s : State} {text : List Char} {n : ℕ} (h : scriptEnd s text = some n) :
    0 < n := by
  cases text with
  | nil => cases h
  | cons c text =>
    rw [scriptEnd] at h
    split_ifs at h
    · cases h
      exact Nat.one_pos
    · obtain ⟨m, _, rfl⟩ := Option.map_eq_some_iff.mp h
      exact Nat.succ_pos m

section Levels

/-- The states that a text between tags and dashes is read in. -/
inductive Level where
  | data
  | escaped
  | doubleEscaped
  | ended
  deriving DecidableEq, Repr

def State.level : State → Level
  | .data | .lessThan | .endTagOpen | .endTagName _ | .escapeStart | .escapeStartDash => .data
  | .escaped | .escapedDash | .escapedDashDash | .escapedLessThan | .escapedEndTagOpen
  | .escapedEndTagName _ | .doubleEscapeStart _ => .escaped
  | .doubleEscaped | .doubleEscapedDash | .doubleEscapedDashDash | .doubleEscapedLessThan
  | .doubleEscapeEnd _ => .doubleEscaped
  | .ended => .ended

def Level.state : Level → State
  | .data => .data
  | .escaped => .escaped
  | .doubleEscaped => .doubleEscaped
  | .ended => .ended

/-- The character is part of no tag and of no dashes. -/
def neutral (c : Char) : Bool :=
  !c.isAlpha && !endsName c && c != '<' && c != '!' && c != '-'

theorem neutral_iff {c : Char} : neutral c = true ↔
    c.isAlpha = false ∧ endsName c = false ∧ c ≠ '<' ∧ c ≠ '!' ∧ c ≠ '-' := by
  simp [neutral, and_assoc]

theorem ne_of_endsName {c d : Char} (h : endsName c = true) (hd : endsName d = false) : c ≠ d := by
  rintro rfl
  rw [h] at hd
  cases hd

theorem next_neutral {c : Char} (h : neutral c = true) (s : State) :
    s.next c = s.level.state := by
  obtain ⟨halpha, hends, hless, hbang, hdash⟩ := neutral_iff.mp h
  have hslash : c ≠ '/' := (ne_of_endsName rfl hends).symm
  have hgreater : c ≠ '>' := (ne_of_endsName rfl hends).symm
  cases s <;>
    simp [State.next, State.level, Level.state, inData, inEscaped, inDoubleEscaped, *]

theorem Level.state_level (l : Level) : l.state.level = l := by
  cases l <;> rfl

theorem scriptEnd_neutral {c : Char} (h : neutral c = true) {s : State}
    (unended : s.level ≠ .ended) (text : List Char) :
    scriptEnd s (c :: text) = (scriptEnd s.level.state text).map (· + 1) := by
  have hne : s.level.state ≠ .ended := by
    intro hended
    rw [← s.level.state_level, hended] at unended
    exact unended rfl
  rw [scriptEnd, next_neutral h, if_neg hne]

end Levels

section Patterns

/-- From some place of the text on, `p` holds. -/
def Occurs (p : List Char → Prop) (text : List Char) : Prop := ∃ rest, rest <:+ text ∧ p rest

def Begins (word text : List Char) : Prop :=
  ∃ start rest, text = start ++ rest ∧ start.map Char.toLower = word

def BeginsTag (word text : List Char) : Prop :=
  ∃ start c rest, text = start ++ c :: rest ∧ start.map Char.toLower = word ∧ endsName c = true

def startTag : List Char := '<' :: script

def endTag : List Char := '<' :: '/' :: script

/-- `-->` -/
def ClosesComment (text : List Char) : Prop := ['-', '-', '>'] <+: text

/-- A `<!--` with a start tag `script` somewhere behind it, and no `-->` behind the `<!`. -/
def OpensComment (text : List Char) : Prop :=
  ∃ rest, text = ['<', '!', '-', '-'] ++ rest ∧ Occurs (BeginsTag startTag) rest ∧
    ¬ Occurs ClosesComment (['-', '-'] ++ rest)

/-- The next end tag of the element is taken for a part of its text. -/
def LeavesOpen (text : List Char) : Prop := Occurs OpensComment text

variable {p : List Char → Prop} {word text : List Char} {c : Char}

theorem occurs_nil : Occurs p [] ↔ p [] := by
  constructor
  · rintro ⟨rest, hrest, h⟩
    rwa [List.suffix_nil.mp hrest] at h
  · exact fun h => ⟨[], List.suffix_rfl, h⟩

theorem occurs_cons : Occurs p (c :: text) ↔ p (c :: text) ∨ Occurs p text := by
  constructor
  · rintro ⟨rest, hrest, h⟩
    rcases List.suffix_cons_iff.mp hrest with rfl | hrest
    · exact Or.inl h
    · exact Or.inr ⟨rest, hrest, h⟩
  · rintro (h | ⟨rest, hrest, h⟩)
    · exact ⟨_, List.suffix_rfl, h⟩
    · exact ⟨rest, hrest.trans (List.suffix_cons c text), h⟩

theorem occurs_cons_of_not (h : ¬ p (c :: text)) : Occurs p (c :: text) ↔ Occurs p text := by
  rw [occurs_cons]
  exact or_iff_right h

theorem occurs_append_of_not {start : List Char}
    (h : ∀ before d after, start = before ++ d :: after → ¬ p (d :: after ++ text)) :
    Occurs p (start ++ text) ↔ Occurs p text := by
  induction start with
  | nil => rfl
  | cons c start ih =>
    refine (occurs_cons_of_not (h [] c start rfl)).trans (ih fun before d after heq => ?_)
    exact h (c :: before) d after (by rw [heq, List.cons_append])

theorem Occurs.append_left {rest : List Char} (h : Occurs p rest) (start : List Char) :
    Occurs p (start ++ rest) := by
  obtain ⟨found, hfound, hp⟩ := h
  exact ⟨found, hfound.trans (List.suffix_append start rest), hp⟩

theorem BeginsTag.begins (h : BeginsTag word text) : Begins word text := by
  obtain ⟨start, d, rest, rfl, hstart, _⟩ := h
  exact ⟨start, d :: rest, rfl, hstart⟩

theorem toLower_cases (c : Char) :
    c.toLower = c ∨ c.isAlpha = true ∧ c.toLower.isAlpha = true := by
  by_cases h : c.val ≥ 'A'.val ∧ c.val ≤ 'Z'.val
  · have hupper : c.isUpper = true := decide_eq_true h
    have hval : c.toLower.val = c.val + ('a'.val - 'A'.val) := congrArg Char.val (dif_pos h)
    have hrange : c.toLower.val ≥ 'a'.val ∧ c.toLower.val ≤ 'z'.val := by
      rw [hval]
      simp [UInt32.le_iff_toNat_le] at h ⊢
      omega
    have hlower : c.toLower.isLower = true :=
      Bool.and_eq_true_iff.mpr ⟨decide_eq_true hrange.1, decide_eq_true hrange.2⟩
    refine Or.inr ⟨?_, ?_⟩
    · exact Bool.or_eq_true_iff.mpr (Or.inl hupper)
    · exact Bool.or_eq_true_iff.mpr (Or.inr hlower)
  · exact Or.inl (dif_neg h)

theorem eq_of_toLower {c d : Char} (h : c.toLower = d) (sign : d.isAlpha = false) : c = d := by
  rcases toLower_cases c with hsame | ⟨_, halpha⟩
  · exact hsame.symm.trans h
  · rw [h, sign] at halpha
    cases halpha

theorem begins_head {d : Char} (sign : d.isAlpha = false) (h : Begins (d :: word) (c :: text)) :
    c = d := by
  obtain ⟨start, rest, heq, hstart⟩ := h
  cases start with
  | nil => cases hstart
  | cons c' start =>
    obtain ⟨rfl, _⟩ := List.cons.inj heq
    exact eq_of_toLower (List.cons.inj hstart).1 sign

end Patterns

section Scanning

structure Dashes (base dash dashDash : State) : Prop where
  first : base.next '-' = dash
  second : dash.next '-' = dashDash
  more : dashDash.next '-' = dashDash
  dash_other : ∀ c, c ≠ '-' → dash.next c = base.next c
  dashDash_other : ∀ c, c ≠ '-' → c ≠ '>' → dashDash.next c = base.next c
  dash_level : dash.level = base.level
  dashDash_level : dashDash.level = base.level

theorem dashes_escaped : Dashes .escaped .escapedDash .escapedDashDash where
  first := rfl
  second := rfl
  more := rfl
  dash_other _ h := if_neg h
  dashDash_other _ h h' := (if_neg h).trans (if_neg h')
  dash_level := rfl
  dashDash_level := rfl

theorem dashes_doubleEscaped :
    Dashes .doubleEscaped .doubleEscapedDash .doubleEscapedDashDash where
  first := rfl
  second := rfl
  more := rfl
  dash_other _ h := if_neg h
  dashDash_other _ h h' := (if_neg h).trans (if_neg h')
  dash_level := rfl
  dashDash_level := rfl

/-- The states of a name that is read letter by letter, to be compared with `script`. -/
structure Names (base : State) (name : List Char → State) : Prop where
  letter : ∀ read c, c.isAlpha = true → (name read).next c = name (read ++ [c.toLower])
  other : ∀ read c, c.isAlpha = false → (read = script → endsName c = false) →
    (name read).next c = base.next c
  base_letter : ∀ c, c.isAlpha = true → base.next c = base
  level : ∀ read, (name read).level = base.level

theorem ne_of_isAlpha {c d : Char} (h : c.isAlpha = true) (sign : d.isAlpha = false) : c ≠ d := by
  rintro rfl
  rw [h] at sign
  cases sign

theorem inData_of_ne {c : Char} (h : c ≠ '<') : inData c = .data := if_neg h

theorem inEscaped_of_ne {c : Char} (hdash : c ≠ '-') (hless : c ≠ '<') :
    inEscaped c = .escaped :=
  (if_neg hdash).trans (if_neg hless)

theorem inDoubleEscaped_of_ne {c : Char} (hdash : c ≠ '-') (hless : c ≠ '<') :
    inDoubleEscaped c = .doubleEscaped :=
  (if_neg hdash).trans (if_neg hless)

theorem not_closes {c : Char} {read : List Char} (h : read = script → endsName c = false) :
    ¬ (endsName c = true ∧ read = script) := by
  rintro ⟨hc, hread⟩
  rw [h hread] at hc
  cases hc

theorem names_endTag : Names .data .endTagName where
  letter _ _ h := if_pos h
  other _ _ h hends := (if_neg (by simp [h])).trans (if_neg (not_closes hends))
  base_letter _ h := inData_of_ne (ne_of_isAlpha h rfl)
  level _ := rfl

theorem names_escapedEndTag : Names .escaped .escapedEndTagName where
  letter _ _ h := if_pos h
  other _ _ h hends := (if_neg (by simp [h])).trans (if_neg (not_closes hends))
  base_letter _ h := inEscaped_of_ne (ne_of_isAlpha h rfl) (ne_of_isAlpha h rfl)
  level _ := rfl

theorem names_doubleEscapeStart : Names .escaped .doubleEscapeStart where
  letter _ _ h := if_pos h
  other read c h hends := by
    refine (if_neg (by simp [h])).trans ?_
    split_ifs with hc hread
    · rw [hends hread] at hc
      cases hc
    · exact (inEscaped_of_ne (ne_of_endsName hc rfl) (ne_of_endsName hc rfl)).symm
    · rfl
  base_letter _ h := inEscaped_of_ne (ne_of_isAlpha h rfl) (ne_of_isAlpha h rfl)
  level _ := rfl

theorem names_doubleEscapeEnd : Names .doubleEscaped .doubleEscapeEnd where
  letter _ _ h := if_pos h
  other read c h hends := by
    refine (if_neg (by simp [h])).trans ?_
    split_ifs with hc hread
    · rw [hends hread] at hc
      cases hc
    · exact (inDoubleEscaped_of_ne (ne_of_endsName hc rfl) (ne_of_endsName hc rfl)).symm
    · rfl
  base_letter _ h := inDoubleEscaped_of_ne (ne_of_isAlpha h rfl) (ne_of_isAlpha h rfl)
  level _ := rfl

variable {base dash dashDash : State} {name : List Char → State} {text : List Char} {c : Char}

theorem Dashes.level_run (h : Dashes base dash dashDash)
    (unclosed : ¬ ClosesComment ('-' :: text)) : (run dash text).level = (run base text).level := by
  cases text with
  | nil => exact h.dash_level
  | cons c text =>
    by_cases hc : c = '-'
    · subst hc
      rw [run_cons, run_cons, h.second, h.first]
      cases text with
      | nil => exact h.dashDash_level.trans h.dash_level.symm
      | cons d text =>
        by_cases hd : d = '-'
        · subst hd
          rw [run_cons, run_cons, h.more, h.second]
        · have hclose : d ≠ '>' := by
            rintro rfl
            exact unclosed ⟨text, rfl⟩
          rw [run_cons, run_cons, h.dashDash_other d hd hclose, h.dash_other d hd]
    · rw [run_cons, run_cons, h.dash_other c hc]

theorem Names.level_run (h : Names base name) {read : List Char}
    (otherwise : ∀ start d rest, text = start ++ d :: rest →
      read ++ start.map Char.toLower = script → endsName d = false) :
    (run (name read) text).level = (run base text).level := by
  induction text generalizing read with
  | nil => exact h.level read
  | cons c text ih =>
    cases hc : c.isAlpha with
    | true =>
      rw [run_cons, run_cons, h.letter read c hc, h.base_letter c hc]
      refine ih fun start d rest heq hread => ?_
      refine otherwise (c :: start) d rest (by rw [heq, List.cons_append]) ?_
      rwa [List.map_cons, ← List.singleton_append, ← List.append_assoc]
    | false =>
      have hends : read = script → endsName c = false := fun hread =>
        otherwise [] c text rfl (by rw [List.map_nil, List.append_nil, hread])
      rw [run_cons, run_cons, h.other read c hc hends]

theorem Names.level_of_not_beginsTag (h : Names base name) (opening : List Char)
    (signs : opening.map Char.toLower = opening)
    (no : ¬ BeginsTag (opening ++ script) (opening ++ text)) :
    (run (name []) text).level = (run base text).level := by
  refine h.level_run fun start d rest heq hstart => ?_
  by_contra hends
  refine no ⟨opening ++ start, d, rest, by rw [heq, List.append_assoc], ?_, by simpa using hends⟩
  rw [List.map_append, signs, ← hstart, List.nil_append]

theorem level_congr {s s' : State} (level : s.level = s'.level)
    (next : ∀ c rest, text = c :: rest → s.next c = s'.next c) :
    (run s text).level = (run s' text).level := by
  cases text with
  | nil => exact level
  | cons c rest => rw [run_cons, run_cons, next c rest rfl]

theorem level_endTagOpen (no : ¬ BeginsTag endTag ('<' :: '/' :: text)) :
    (run .endTagOpen text).level = (run .data text).level := by
  rw [← names_endTag.level_of_not_beginsTag ['<', '/'] (by decide) no]
  exact level_congr rfl fun c _ _ => by simp [State.next, script]

theorem level_escapedEndTagOpen (no : ¬ BeginsTag endTag ('<' :: '/' :: text)) :
    (run .escapedEndTagOpen text).level = (run .escaped text).level := by
  rw [← names_escapedEndTag.level_of_not_beginsTag ['<', '/'] (by decide) no]
  exact level_congr rfl fun c _ _ => by simp [State.next, script]

theorem level_escapeStart (no : ¬ ['-', '-'] <+: text) :
    (run .escapeStart text).level = (run .data text).level := by
  cases text with
  | nil => rfl
  | cons c text =>
    by_cases hc : c = '-'
    · subst hc
      change (run .escapeStartDash text).level = (run .data text).level
      refine level_congr rfl fun d rest heq => if_neg ?_
      rintro rfl
      exact no ⟨rest, by rw [heq]; rfl⟩
    · have hnext : State.escapeStart.next c = State.data.next c := if_neg hc
      rw [run_cons, run_cons, hnext]

theorem level_data (comment : ¬ ['<', '!', '-', '-'] <+: c :: text)
    (closing : ¬ BeginsTag endTag (c :: text)) :
    (run .data (c :: text)).level = (run .data text).level := by
  by_cases hc : c = '<'
  · subst hc
    change (run .lessThan text).level = _
    cases text with
    | nil => rfl
    | cons d text =>
      by_cases hslash : d = '/'
      · subst hslash
        exact level_endTagOpen closing
      by_cases hbang : d = '!'
      · subst hbang
        refine level_escapeStart fun ⟨rest, hrest⟩ => comment ⟨rest, ?_⟩
        rw [← hrest]
        rfl
      · have hnext : State.lessThan.next d = State.data.next d :=
          (if_neg hslash).trans (if_neg hbang)
        rw [run_cons, run_cons, hnext]
  · have hnext : State.data.next c = .data := inData_of_ne hc
    rw [run_cons, hnext]

theorem level_escaped (comment : ¬ ClosesComment (c :: text))
    (closing : ¬ BeginsTag endTag (c :: text)) (opening : ¬ BeginsTag startTag (c :: text)) :
    (run .escaped (c :: text)).level = (run .escaped text).level := by
  by_cases hdash : c = '-'
  · subst hdash
    exact dashes_escaped.level_run comment
  by_cases hless : c = '<'
  · subst hless
    change (run .escapedLessThan text).level = _
    cases text with
    | nil => rfl
    | cons d text =>
      by_cases hslash : d = '/'
      · subst hslash
        exact level_escapedEndTagOpen closing
      cases hd : d.isAlpha with
      | true =>
        have hnext : State.escapedLessThan.next d = (State.doubleEscapeStart []).next d := by
          simp [State.next, hslash, hd]
        rw [run_cons, hnext, ← run_cons]
        exact names_doubleEscapeStart.level_of_not_beginsTag ['<'] (by decide) opening
      | false =>
        have hnext : State.escapedLessThan.next d = State.escaped.next d := by
          simp [State.next, hslash, hd]
        rw [run_cons, run_cons, hnext]
  · have hnext : State.escaped.next c = .escaped := inEscaped_of_ne hdash hless
    rw [run_cons, hnext]

theorem level_doubleEscaped (comment : ¬ ClosesComment (c :: text))
    (closing : ¬ BeginsTag endTag (c :: text)) :
    (run .doubleEscaped (c :: text)).level = (run .doubleEscaped text).level := by
  by_cases hdash : c = '-'
  · subst hdash
    exact dashes_doubleEscaped.level_run comment
  by_cases hless : c = '<'
  · subst hless
    change (run .doubleEscapedLessThan text).level = _
    cases text with
    | nil => rfl
    | cons d text =>
      by_cases hslash : d = '/'
      · subst hslash
        exact names_doubleEscapeEnd.level_of_not_beginsTag ['<', '/'] (by decide)
          closing
      · have hnext : State.doubleEscapedLessThan.next d = State.doubleEscaped.next d :=
          if_neg hslash
        rw [run_cons, run_cons, hnext]
  · have hnext : State.doubleEscaped.next c = .doubleEscaped := inDoubleEscaped_of_ne hdash hless
    rw [run_cons, hnext]

end Scanning

section Openness

variable {text rest : List Char} {c : Char}

def EscapedOpen (text : List Char) : Prop :=
  LeavesOpen text ∨ ¬ Occurs ClosesComment text ∧ Occurs (BeginsTag startTag) text

def DoubleEscapedOpen (text : List Char) : Prop := LeavesOpen text ∨ ¬ Occurs ClosesComment text

theorem not_closesComment (h : c ≠ '-') : ¬ ClosesComment (c :: text) := by
  rintro ⟨rest, hrest⟩
  exact h (List.cons.inj hrest).1.symm

theorem OpensComment.starts (h : OpensComment text) : ['<', '!', '-', '-'] <+: text := by
  obtain ⟨rest, rfl, _⟩ := h
  exact ⟨rest, rfl⟩

theorem not_opensComment {d : Char} (h : c ≠ '<' ∨ d ≠ '!') : ¬ OpensComment (c :: d :: text) := by
  intro hopens
  obtain ⟨rest, hrest⟩ := hopens.starts
  obtain ⟨hc, htail⟩ := List.cons.inj hrest
  rcases h with h | h
  · exact h hc.symm
  · exact h (List.cons.inj htail).1.symm

theorem not_opensComment_of_ne (h : c ≠ '<') : ¬ OpensComment (c :: text) := by
  intro hopens
  obtain ⟨rest, hrest⟩ := hopens.starts
  exact h (List.cons.inj hrest).1.symm

theorem OpensComment.tail (h : OpensComment (c :: text)) :
    ¬ Occurs ClosesComment text ∧ Occurs (BeginsTag startTag) text := by
  obtain ⟨rest, heq, htag, hunclosed⟩ := h
  obtain ⟨_, rfl⟩ := List.cons.inj heq
  refine ⟨?_, htag.append_left ['!', '-', '-']⟩
  exact (occurs_cons_of_not (not_closesComment (by decide))).not.mpr hunclosed

theorem leavesOpen_comment :
    LeavesOpen ('<' :: '!' :: '-' :: '-' :: text) ↔ EscapedOpen ('-' :: '-' :: text) := by
  have hdash : ∀ rest, ¬ BeginsTag startTag ('-' :: rest) := fun rest h =>
    absurd (begins_head (by decide) h.begins) (by decide)
  rw [LeavesOpen, occurs_cons, occurs_cons_of_not (not_opensComment_of_ne (by decide)), or_comm,
    EscapedOpen, LeavesOpen, occurs_cons_of_not (hdash _), occurs_cons_of_not (hdash _)]
  refine or_congr Iff.rfl ⟨fun h => ?_, fun h => ⟨text, rfl, h.2, h.1⟩⟩
  obtain ⟨rest, heq, htag, hunclosed⟩ := h
  obtain rfl : text = rest := by simpa using heq
  exact ⟨hunclosed, htag⟩

theorem escapedOpen_cons (comment : ¬ ClosesComment (c :: text))
    (opening : ¬ BeginsTag startTag (c :: text)) : EscapedOpen (c :: text) ↔ EscapedOpen text := by
  rw [EscapedOpen, EscapedOpen, LeavesOpen, LeavesOpen, occurs_cons, occurs_cons_of_not comment,
    occurs_cons_of_not opening, or_assoc]
  exact or_iff_right_of_imp fun h => Or.inr h.tail

theorem doubleEscapedOpen_cons (comment : ¬ ClosesComment (c :: text)) :
    DoubleEscapedOpen (c :: text) ↔ DoubleEscapedOpen text := by
  rw [DoubleEscapedOpen, DoubleEscapedOpen, LeavesOpen, LeavesOpen, occurs_cons,
    occurs_cons_of_not comment, or_assoc]
  exact or_iff_right_of_imp fun h => Or.inr h.tail.1

theorem leavesOpen_close : LeavesOpen ('-' :: '-' :: '>' :: text) ↔ LeavesOpen text := by
  rw [LeavesOpen, occurs_cons_of_not (not_opensComment_of_ne (by decide)),
    occurs_cons_of_not (not_opensComment_of_ne (by decide)),
    occurs_cons_of_not (not_opensComment_of_ne (by decide)), LeavesOpen]

theorem closes : Occurs ClosesComment ('-' :: '-' :: '>' :: text) :=
  ⟨_, List.suffix_rfl, text, rfl⟩

theorem startTag_signs {start : List Char} (htag : start.map Char.toLower = startTag)
    (hends : endsName c = true) : ∀ d ∈ start ++ [c], d ≠ '-' ∧ d ≠ '!' := by
  have hsigns : ∀ d ∈ startTag, d ≠ '-' ∧ d ≠ '!' := by simp [startTag, script]
  intro d hd
  rcases List.mem_append.mp hd with hd | hd
  · have hlower : d.toLower ∈ startTag := htag ▸ List.mem_map_of_mem hd
    constructor
    · rintro rfl
      exact (hsigns _ hlower).1 rfl
    · rintro rfl
      exact (hsigns _ hlower).2 rfl
  · obtain rfl := List.mem_singleton.mp hd
    exact ⟨ne_of_endsName hends rfl, ne_of_endsName hends rfl⟩

theorem escapedOpen_startTag {start : List Char} (htag : start.map Char.toLower = startTag)
    (hends : endsName c = true) : EscapedOpen (start ++ c :: rest) ↔ DoubleEscapedOpen rest := by
  have hsigns := startTag_signs htag hends
  have hfound : Occurs (BeginsTag startTag) (start ++ c :: rest) :=
    ⟨_, List.suffix_rfl, start, c, rest, rfl, htag, hends⟩
  have hcloses : Occurs ClosesComment (start ++ c :: rest) ↔ Occurs ClosesComment rest := by
    rw [List.append_cons]
    refine occurs_append_of_not fun before d after heq => not_closesComment ?_
    exact (hsigns d (by rw [heq]; simp)).1
  have hopens : LeavesOpen (start ++ c :: rest) ↔ LeavesOpen rest := by
    rw [List.append_cons]
    refine occurs_append_of_not fun before d after heq => ?_
    cases after with
    | nil =>
      have hd : c = d := by simpa using (List.append_inj' heq rfl).2
      exact not_opensComment_of_ne (hd ▸ ne_of_endsName hends rfl)
    | cons e after => exact not_opensComment (Or.inr (hsigns e (by rw [heq]; simp)).2)
  rw [EscapedOpen, DoubleEscapedOpen, hopens, hcloses, and_iff_left hfound]

end Openness

section Reading

variable {text : List Char}

theorem Names.run_letters {base : State} {name : List Char → State} (h : Names base name)
    {letters : List Char} (alpha : ∀ c ∈ letters, c.isAlpha = true) (read text : List Char) :
    run (name read) (letters ++ text) = run (name (read ++ letters.map Char.toLower)) text := by
  induction letters generalizing read with
  | nil => rw [List.nil_append, List.map_nil, List.append_nil]
  | cons c letters ih =>
    rw [List.cons_append, run_cons, h.letter read c (alpha c List.mem_cons_self),
      ih fun d hd => alpha d (List.mem_cons_of_mem c hd)]
    rw [List.map_cons, List.append_assoc, List.singleton_append]

theorem isAlpha_of_endsName {c : Char} (h : endsName c = true) : c.isAlpha = false := by
  simp only [endsName, Bool.or_eq_true, beq_iff_eq] at h
  rcases h with ((((rfl | rfl) | rfl) | rfl) | rfl) | rfl <;> rfl

theorem isAlpha_of_toLower_mem {c : Char} (h : c.toLower ∈ script) : c.isAlpha = true := by
  have hletters : ∀ d ∈ script, d.isAlpha = true := List.all_eq_true.mp (by decide)
  rcases toLower_cases c with hsame | ⟨halpha, _⟩
  · rw [hsame] at h
    exact hletters c h
  · exact halpha

theorem run_startTag {start rest : List Char} {c : Char}
    (htag : start.map Char.toLower = startTag) (hends : endsName c = true) :
    run .escaped (start ++ c :: rest) = run .doubleEscaped rest := by
  cases start with
  | nil => cases htag
  | cons less letters =>
    obtain ⟨hless, hletters⟩ := List.cons.inj htag
    obtain rfl := eq_of_toLower hless (by decide)
    have halpha : ∀ d ∈ letters, d.isAlpha = true := fun d hd =>
      isAlpha_of_toLower_mem (hletters ▸ List.mem_map_of_mem hd)
    have hname : run (.doubleEscapeStart []) (letters ++ c :: rest) = run .doubleEscaped rest := by
      rw [names_doubleEscapeStart.run_letters halpha, hletters, List.nil_append, run_cons]
      simp [State.next, isAlpha_of_endsName hends, hends]
    cases letters with
    | nil => cases hletters
    | cons d letters =>
      have hd := halpha d List.mem_cons_self
      have hslash : d ≠ '/' := ne_of_isAlpha hd rfl
      have hnext : State.escapedLessThan.next d = (State.doubleEscapeStart []).next d := by
        simp [State.next, hslash, hd]
      rw [← hname]
      change run (State.escapedLessThan.next d) (letters ++ c :: rest) = _
      rw [hnext]
      rfl

/-- Whether the element is left open by a text read from a state on. -/
structure Reads (s : State) (text : List Char) (leavesOpen : Prop) : Prop where
  unended : (run s text).level ≠ .ended
  leavesOpen : (run s text).level = .doubleEscaped ↔ leavesOpen

theorem Reads.of_level {s s' : State} {text' : List Char} {p : Prop} (h : Reads s' text' p)
    (same : (run s text).level = (run s' text').level) {p' : Prop} (iff : p' ↔ p) :
    Reads s text p' where
  unended := by rw [same]; exact h.unended
  leavesOpen := by rw [same, iff]; exact h.leavesOpen

theorem Reads.data (unclosed : ¬ Occurs (BeginsTag endTag) text)
    (shorter : ∀ rest, rest.length < text.length → ¬ Occurs (BeginsTag endTag) rest →
      Reads .data rest (LeavesOpen rest) ∧ Reads .escaped rest (EscapedOpen rest)) :
    Reads .data text (LeavesOpen text) := by
  cases text with
  | nil =>
    refine ⟨by decide, fun h => ?_, fun h => ?_⟩
    · cases h
    · obtain ⟨rest, hrest⟩ := (occurs_nil.mp h).starts
      cases hrest
  | cons c text =>
    obtain ⟨hclosing, hunclosed⟩ := not_or.mp (occurs_cons.not.mp unclosed)
    by_cases hcomment : ['<', '!', '-', '-'] <+: c :: text
    · obtain ⟨rest, hrest⟩ := hcomment
      change '<' :: '!' :: '-' :: '-' :: rest = c :: text at hrest
      obtain ⟨rfl, rfl⟩ := List.cons.inj hrest
      have hrest : ¬ Occurs (BeginsTag endTag) ('-' :: '-' :: rest) := fun h =>
        hunclosed (h.append_left ['!'])
      refine (shorter ('-' :: '-' :: rest) (by simp) hrest).2.of_level ?_ leavesOpen_comment
      rfl
    · refine (shorter text (by simp) hunclosed).1.of_level (level_data hcomment hclosing) ?_
      exact occurs_cons_of_not fun h => hcomment h.starts

theorem Reads.close {s : State} {leads : List Char → Prop} {c : Char}
    (hclose : ClosesComment (c :: text)) (unclosed : ¬ Occurs (BeginsTag endTag) (c :: text))
    (back : ∀ rest, run s ('-' :: '-' :: '>' :: rest) = run .data rest)
    (drops : ∀ rest, leads ('-' :: '-' :: '>' :: rest) ↔ LeavesOpen rest)
    (shorter : ∀ rest, rest.length < (c :: text).length → ¬ Occurs (BeginsTag endTag) rest →
      Reads .data rest (LeavesOpen rest)) : Reads s (c :: text) (leads (c :: text)) := by
  obtain ⟨rest, hrest⟩ := hclose
  rw [← hrest] at unclosed shorter ⊢
  have hunclosed : ¬ Occurs (BeginsTag endTag) rest := fun h =>
    unclosed (h.append_left ['-', '-', '>'])
  have hlt : rest.length < (['-', '-', '>'] ++ rest).length := by
    rw [List.length_append]
    exact Nat.lt_add_of_pos_left (by decide)
  exact (shorter rest hlt hunclosed).of_level (congrArg State.level (back rest)) (drops rest)

theorem escapedOpen_close : EscapedOpen ('-' :: '-' :: '>' :: text) ↔ LeavesOpen text := by
  rw [EscapedOpen, leavesOpen_close]
  exact or_iff_left fun h => h.1 closes

theorem doubleEscapedOpen_close :
    DoubleEscapedOpen ('-' :: '-' :: '>' :: text) ↔ LeavesOpen text := by
  rw [DoubleEscapedOpen, leavesOpen_close]
  exact or_iff_left fun h => h closes

theorem Reads.escaped (unclosed : ¬ Occurs (BeginsTag endTag) text)
    (shorter : ∀ rest, rest.length < text.length → ¬ Occurs (BeginsTag endTag) rest →
      Reads .data rest (LeavesOpen rest) ∧ Reads .escaped rest (EscapedOpen rest) ∧
        Reads .doubleEscaped rest (DoubleEscapedOpen rest)) :
    Reads .escaped text (EscapedOpen text) := by
  cases text with
  | nil =>
    refine ⟨by decide, fun h => ?_, fun h => ?_⟩
    · cases h
    · rcases h with h | ⟨_, h⟩
      · obtain ⟨rest, hrest⟩ := (occurs_nil.mp h).starts
        cases hrest
      · obtain ⟨start, d, rest, hnil, _⟩ := occurs_nil.mp h
        simp at hnil
  | cons c text =>
    obtain ⟨hclosing, hunclosed⟩ := not_or.mp (occurs_cons.not.mp unclosed)
    by_cases hclose : ClosesComment (c :: text)
    · exact .close hclose unclosed (fun _ => rfl) (fun _ => escapedOpen_close)
        fun rest hlt hrest => (shorter rest hlt hrest).1
    by_cases hopening : BeginsTag startTag (c :: text)
    · obtain ⟨start, d, rest, heq, htag, hends⟩ := hopening
      rw [heq] at unclosed shorter ⊢
      have hrest : ¬ Occurs (BeginsTag endTag) rest := fun h =>
        unclosed (List.append_cons start d rest ▸ h.append_left (start ++ [d]))
      exact (shorter rest (by simp; omega) hrest).2.2.of_level
        (congrArg State.level (run_startTag htag hends)) (escapedOpen_startTag htag hends)
    · exact (shorter text (by simp) hunclosed).2.1.of_level
        (level_escaped hclose hclosing hopening) (escapedOpen_cons hclose hopening)

theorem Reads.doubleEscaped (unclosed : ¬ Occurs (BeginsTag endTag) text)
    (shorter : ∀ rest, rest.length < text.length → ¬ Occurs (BeginsTag endTag) rest →
      Reads .data rest (LeavesOpen rest) ∧ Reads .doubleEscaped rest (DoubleEscapedOpen rest)) :
    Reads .doubleEscaped text (DoubleEscapedOpen text) := by
  cases text with
  | nil =>
    refine ⟨by decide, fun _ => Or.inr fun h => ?_, fun _ => rfl⟩
    obtain ⟨rest, hrest⟩ := occurs_nil.mp h
    cases hrest
  | cons c text =>
    obtain ⟨hclosing, hunclosed⟩ := not_or.mp (occurs_cons.not.mp unclosed)
    by_cases hclose : ClosesComment (c :: text)
    · exact .close hclose unclosed (fun _ => rfl) (fun _ => doubleEscapedOpen_close)
        fun rest hlt hrest => (shorter rest hlt hrest).1
    · exact (shorter text (by simp) hunclosed).2.of_level
        (level_doubleEscaped hclose hclosing) (doubleEscapedOpen_cons hclose)

/-- A text without an end tag `script`, from each of the three states on. -/
theorem reads_text (unclosed : ¬ Occurs (BeginsTag endTag) text) :
    Reads .data text (LeavesOpen text) ∧ Reads .escaped text (EscapedOpen text) ∧
      Reads .doubleEscaped text (DoubleEscapedOpen text) := by
  induction hlength : text.length using Nat.strong_induction_on generalizing text with
  | _ n ih =>
    subst hlength
    have shorter : ∀ rest, rest.length < text.length → ¬ Occurs (BeginsTag endTag) rest →
        Reads .data rest (LeavesOpen rest) ∧ Reads .escaped rest (EscapedOpen rest) ∧
          Reads .doubleEscaped rest (DoubleEscapedOpen rest) :=
      fun rest hlt hrest => ih _ hlt hrest rfl
    exact ⟨.data unclosed fun rest hlt hrest => ⟨(shorter rest hlt hrest).1,
        (shorter rest hlt hrest).2.1⟩,
      .escaped unclosed shorter, .doubleEscaped unclosed fun rest hlt hrest =>
        ⟨(shorter rest hlt hrest).1, (shorter rest hlt hrest).2.2⟩⟩

end Reading

end RustExperiments.Lib.ScriptData
