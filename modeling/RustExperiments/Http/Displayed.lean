/- module: RustExperiments/Http/Displayed
   digest: The text that the markup of a value is displayed as. -/

import RustExperiments.Http.CreateJson
import RustExperiments.Lib.Except
import RustExperiments.Lib.Lines

set_option autoImplicit false
set_option relaxedAutoImplicit false

namespace RustExperiments.Http

open RustExperiments.Lib

section Display

/-- The entities that `escapeHtml` writes, without their `&`. -/
def entities : List (List Char × Char) :=
  [("amp;".toList, '&'), ("lt;".toList, '<'), ("gt;".toList, '>'), ("quot;".toList, '"'),
    ("#039;".toList, '\'')]

def decodeEntity (cs : List Char) : Option (Char × List Char) :=
  entities.findSome? fun entity => (behind entity.1 cs).map fun rest => (entity.2, rest)

theorem behind_length {front cs rest : List Char} (h : behind front cs = some rest) :
    rest.length ≤ cs.length := by
  induction front generalizing cs with
  | nil =>
    cases h
    exact Nat.le_refl _
  | cons f front ih =>
    cases cs with
    | nil => cases h
    | cons c cs =>
      rw [behind] at h
      split_ifs at h with hc
      exact Nat.le_succ_of_le (ih h)

theorem decodeEntity_length {cs rest : List Char} {c : Char}
    (h : decodeEntity cs = some (c, rest)) : rest.length ≤ cs.length := by
  obtain ⟨entity, _, hentity⟩ := List.exists_of_findSome?_eq_some h
  obtain ⟨rest', hbehind, hpair⟩ := Option.map_eq_some_iff.mp hentity
  cases hpair
  exact behind_length hbehind

/-- The text of a piece of markup: its tags removed and its entities decoded. -/
def display : List Char → List Char
  | [] => []
  | c :: cs =>
    if c = '<' then display (cs.dropWhile (· != '>')).tail
    else if c = '&' then
      match h : decodeEntity cs with
      | some (d, rest) =>
        have := decodeEntity_length h
        d :: display rest
      | none => c :: display cs
    else c :: display cs
termination_by cs => cs.length
decreasing_by
  · have hdrop := (List.dropWhile_suffix (fun x => x != '>') : cs.dropWhile _ <:+ cs).length_le
    rw [List.length_tail, List.length_cons]
    omega
  all_goals
    rw [List.length_cons]
    omega

theorem display_nil : display [] = [] := by
  rw [display]

theorem display_plain {c : Char} (htag : c ≠ '<') (hentity : c ≠ '&') (cs : List Char) :
    display (c :: cs) = c :: display cs := by
  rw [display, if_neg htag, if_neg hentity]

theorem display_append {text : List Char} (h : ∀ c ∈ text, c ≠ '<' ∧ c ≠ '&')
    (rest : List Char) : display (text ++ rest) = text ++ display rest := by
  induction text with
  | nil => rfl
  | cons c text ih =>
    obtain ⟨htag, hentity⟩ := h c List.mem_cons_self
    rw [List.cons_append, display_plain htag hentity,
      ih fun d hd => h d (List.mem_cons_of_mem c hd), List.cons_append]

theorem display_tag {tag : List Char} (h : '>' ∉ tag) (rest : List Char) :
    display ('<' :: (tag ++ '>' :: rest)) = display rest := by
  rw [display, if_pos rfl]
  have hdrop : (tag ++ '>' :: rest).dropWhile (· != '>') = '>' :: rest := by
    apply Json.dropWhile_append_of_head
    · intro c hc
      rw [bne_iff_ne]
      rintro rfl
      exact h hc
    · intro c hc
      cases hc
      rfl
  rw [hdrop, List.tail_cons]

theorem display_entity {cs rest : List Char} {c : Char} (h : decodeEntity cs = some (c, rest)) :
    display ('&' :: cs) = c :: display rest := by
  rw [display, if_neg (by decide), if_pos rfl]
  split
  · rename_i d rest' h'
    obtain ⟨rfl, rfl⟩ := Prod.mk.inj (Option.some.inj (h.symm.trans h'))
    rfl
  · rename_i h'
    rw [h] at h'
    cases h'

end Display

section Escape

theorem replaceAll_append (c : Char) (text s t : List Char) :
    replaceAll c text (s ++ t) = replaceAll c text s ++ replaceAll c text t :=
  List.flatMap_append

theorem escapeHtml_append (s t : List Char) :
    escapeHtml (s ++ t) = escapeHtml s ++ escapeHtml t := by
  simp only [escapeHtml, replaceAll_append]

theorem replaceAll_of_ne {c x : Char} (h : x ≠ c) (text : List Char) :
    replaceAll c text [x] = [x] := by
  rw [replaceAll, List.flatMap_singleton, if_neg h]

theorem escapeHtml_plain {c : Char} (hamp : c ≠ '&') (hlt : c ≠ '<') (hgt : c ≠ '>')
    (hquot : c ≠ '"') (hapos : c ≠ '\'') : escapeHtml [c] = [c] := by
  simp only [escapeHtml, replaceAll_of_ne hamp, replaceAll_of_ne hlt, replaceAll_of_ne hgt,
    replaceAll_of_ne hquot, replaceAll_of_ne hapos]

theorem display_escapeHtml_char (c : Char) (rest : List Char) :
    display (escapeHtml [c] ++ rest) = c :: display rest := by
  by_cases hamp : c = '&'
  · subst hamp
    exact display_entity rfl
  by_cases hlt : c = '<'
  · subst hlt
    exact display_entity rfl
  by_cases hgt : c = '>'
  · subst hgt
    exact display_entity rfl
  by_cases hquot : c = '"'
  · subst hquot
    exact display_entity rfl
  by_cases hapos : c = '\''
  · subst hapos
    exact display_entity rfl
  · rw [escapeHtml_plain hamp hlt hgt hquot hapos, List.singleton_append,
      display_plain hlt hamp]

theorem display_escapeHtml (s rest : List Char) :
    display (escapeHtml s ++ rest) = s ++ display rest := by
  induction s with
  | nil => rfl
  | cons c s ih =>
    rw [← List.singleton_append, escapeHtml_append, List.append_assoc, display_escapeHtml_char, ih]
    rfl

end Escape

section Shown

def pad (depth : ℕ) : List Char := List.replicate (2 * depth) ' '

theorem pad_succ (depth : ℕ) : pad depth ++ "  ".toList = pad (depth + 1) := by
  have htwo : "  ".toList = List.replicate 2 ' ' := rfl
  rw [htwo, pad, pad, List.replicate_append_replicate, Nat.mul_succ]

theorem display_pad (depth : ℕ) (rest : List Char) :
    display (pad depth ++ rest) = pad depth ++ display rest := by
  apply display_append
  intro c hc
  rw [List.eq_of_mem_replicate hc]
  decide

inductive Scalar where
  | null
  | bool (b : Bool)
  | number (n : JsNumber)
  | string (s : String)

mutual

/-- The text of a value without any markup, its scalars written as `scalar` says. -/
def layout (scalar : Scalar → List Char) (depth : ℕ) : Value → List Char
  | .null => scalar .null
  | .bool b => scalar (.bool b)
  | .number n => scalar (.number n)
  | .string s => scalar (.string s)
  | .array items => '[' :: '\n' :: (layoutItems scalar depth items ++ (pad depth ++ [']']))
  | .object fields => '{' :: '\n' :: (layoutFields scalar depth fields ++ (pad depth ++ ['}']))

def layoutItems (scalar : Scalar → List Char) (depth : ℕ) : List Value → List Char
  | [] => []
  | item :: rest => pad (depth + 1) ++ (layout scalar (depth + 1) item ++
    (comma rest.isEmpty ++ '\n' :: layoutItems scalar depth rest))

def layoutFields (scalar : Scalar → List Char) (depth : ℕ) : List (String × Value) → List Char
  | [] => []
  | (key, value) :: rest => pad (depth + 1) ++ (key.toList ++ (": ".toList ++
    (layout scalar (depth + 1) value ++
      (comma rest.isEmpty ++ '\n' :: layoutFields scalar depth rest))))

end

/-- What `createJson` writes for a scalar. -/
def Scalar.shown : Scalar → List Char
  | .null => "null".toList
  | .bool _ => "true".toList
  | .number n => n.toText
  | .string s => '"' :: (s.toList ++ ['"'])

def shown (depth : ℕ) (v : Value) : List Char := layout Scalar.shown depth v

def shownItems (depth : ℕ) (items : List Value) : List Char :=
  layoutItems Scalar.shown depth items

def shownFields (depth : ℕ) (fields : List (String × Value)) : List Char :=
  layoutFields Scalar.shown depth fields

theorem shown_array (depth : ℕ) (items : List Value) : shown depth (.array items) =
    '[' :: '\n' :: (shownItems depth items ++ (pad depth ++ [']'])) := rfl

theorem shown_object (depth : ℕ) (fields : List (String × Value)) :
    shown depth (.object fields) =
      '{' :: '\n' :: (shownFields depth fields ++ (pad depth ++ ['}'])) := rfl

theorem shownItems_cons (depth : ℕ) (item : Value) (rest : List Value) :
    shownItems depth (item :: rest) = pad (depth + 1) ++
      (shown (depth + 1) item ++ (comma rest.isEmpty ++ '\n' :: shownItems depth rest)) := rfl

theorem shownFields_cons (depth : ℕ) (key : String) (value : Value)
    (rest : List (String × Value)) : shownFields depth ((key, value) :: rest) =
      pad (depth + 1) ++ (key.toList ++ (": ".toList ++ (shown (depth + 1) value ++
        (comma rest.isEmpty ++ '\n' :: shownFields depth rest)))) := rfl

mutual

def Value.keys : Value → List String
  | .array items => keysOfItems items
  | .object fields => keysOfFields fields
  | _ => []

def keysOfItems : List Value → List String
  | [] => []
  | item :: rest => item.keys ++ keysOfItems rest

def keysOfFields : List (String × Value) → List String
  | [] => []
  | (key, value) :: rest => key :: (value.keys ++ keysOfFields rest)

end

/-- No object has links of its own. -/
def Value.Unlinked (v : Value) : Prop := "_links" ∉ v.keys

instance : DecidablePred Value.Unlinked := fun v => inferInstanceAs (Decidable ("_links" ∉ v.keys))

theorem lookup_of_not_mem_keysOfFields {fields : List (String × Value)} {key : String}
    (h : key ∉ keysOfFields fields) : fields.lookup key = none := by
  induction fields with
  | nil => rfl
  | cons field fields ih =>
    obtain ⟨key', value⟩ := field
    simp only [keysOfFields, List.mem_cons, List.mem_append, not_or] at h
    obtain ⟨hkey, _, hrest⟩ := h
    rw [List.lookup_cons, beq_false_of_ne hkey]
    exact ih hrest

theorem Value.Unlinked.ownLinks {v : Value} (h : v.Unlinked) : v.ownLinks = none := by
  cases v with
  | object fields =>
    rw [Value.ownLinks, lookup_of_not_mem_keysOfFields h]
    rfl
  | _ => rfl

theorem Value.Unlinked.innerLinks {v : Value} (h : v.Unlinked) (i : String) :
    innerLinks v none i = .ok none := by
  rw [Http.innerLinks, h.ownLinks]
  rfl

theorem display_comma (last : Bool) (rest : List Char) :
    display (comma last ++ '\n' :: rest) = comma last ++ '\n' :: display rest := by
  have hline := display_plain (c := '\n') (by decide) (by decide) rest
  cases last with
  | true => exact hline
  | false =>
    change display (',' :: '\n' :: rest) = _
    rw [display_plain (by decide) (by decide), hline]
    rfl

theorem display_between {open_ close text rest : List Char} {shown : List Char}
    (hopen : '>' ∉ open_) (hclose : '>' ∉ close)
    (htext : ∀ rest, display (text ++ rest) = shown ++ display rest) :
    display ('<' :: (open_ ++ '>' :: (text ++ '<' :: (close ++ '>' :: rest)))) =
      shown ++ display rest := by
  rw [display_tag hopen, htext, display_tag hclose]

theorem span_markup (name text rest : List Char) :
    "<span class=\"".toList ++ name ++ "\">".toList ++ text ++ "</span>".toList ++ rest =
      '<' :: ("span class=\"".toList ++ name ++ "\"".toList ++
        '>' :: (text ++ '<' :: ("/span".toList ++ '>' :: rest))) := by
  simp only [List.append_assoc]
  rfl

theorem display_span {name text rest shown : List Char} (hname : '>' ∉ name)
    (htext : ∀ rest, display (text ++ rest) = shown ++ display rest) :
    display ("<span class=\"".toList ++ name ++ "\">".toList ++ text ++ "</span>".toList ++ rest) =
      shown ++ display rest := by
  rw [span_markup]
  apply display_between _ (by decide) htext
  simp [hname]

/-- A markup is displayed as a text, whatever comes behind it. -/
def DisplayedAs (markup : Except Stop (List Char)) (text : List Char) : Prop :=
  ∃ s, markup = .ok s ∧ ∀ rest, display (s ++ rest) = text ++ display rest

theorem displayedAs_span (name text : List Char) {shown : List Char} (hname : '>' ∉ name)
    (htext : ∀ rest, display (text ++ rest) = shown ++ display rest) :
    DisplayedAs (.ok ("<span class=\"".toList ++ name ++ "\">".toList ++ text ++ "</span>".toList))
      shown :=
  ⟨_, rfl, fun _ => display_span hname htext⟩

theorem displayedAs_key (key : String) : DisplayedAs (keyMarkup none key) key.toList :=
  displayedAs_span "key".toList _ (by decide) (display_escapeHtml _)

theorem displayedAs_null (links : Option Value) (indent : List Char) :
    DisplayedAs (createJson links indent .null) "null".toList :=
  displayedAs_span "null".toList "null".toList (by decide) (display_append (by simp))

theorem displayedAs_bool (links : Option Value) (indent : List Char) (b : Bool) :
    DisplayedAs (createJson links indent (.bool b)) "true".toList :=
  displayedAs_span "boolean".toList "true".toList (by decide) (display_append (by simp))

theorem displayedAs_number (links : Option Value) (indent : List Char) (n : JsNumber) :
    DisplayedAs (createJson links indent (.number n)) n.toText := by
  refine displayedAs_span "number".toList n.toText (by decide) (display_append fun c hc => ?_)
  have hnumeral := JsNumber.isNumeral_of_mem_toText hc
  constructor
  · rintro rfl
    exact absurd hnumeral (by decide)
  · rintro rfl
    exact absurd hnumeral (by decide)

theorem displayedAs_string (links : Option Value) (indent : List Char) (s : String) :
    DisplayedAs (createJson links indent (.string s)) ('"' :: (s.toList ++ ['"'])) := by
  have hquote := fun rest => display_plain (c := '"') (by decide) (by decide) rest
  have htext : ∀ rest, display ('"' :: (escapeHtml s.toList ++ ['"']) ++ rest) =
      '"' :: (s.toList ++ ['"']) ++ display rest := by
    intro rest
    simp only [List.cons_append, List.append_assoc, List.nil_append, hquote, display_escapeHtml]
  obtain ⟨markup, hmarkup, hdisplay⟩ := displayedAs_span "string".toList _ (by decide) htext
  refine ⟨markup, ?_, hdisplay⟩
  rw [← hmarkup, createJson]
  simp

theorem displayedAs_brackets {inner : Except Stop (List Char)} {text : List Char}
    {opening closing : Char} (hopening : opening ≠ '<' ∧ opening ≠ '&')
    (hclosing : closing ≠ '<' ∧ closing ≠ '&') (depth : ℕ) (h : DisplayedAs inner text) :
    DisplayedAs (do
      let s ← inner
      .ok ([opening, '\n'] ++ s ++ pad depth ++ [closing]))
      (opening :: '\n' :: (text ++ (pad depth ++ [closing]))) := by
  obtain ⟨s, rfl, hdisplay⟩ := h
  refine ⟨[opening, '\n'] ++ s ++ pad depth ++ [closing], rfl, fun rest => ?_⟩
  simp only [List.cons_append, List.append_assoc, List.nil_append]
  rw [display_plain hopening.1 hopening.2, display_plain (by decide) (by decide), hdisplay,
    display_pad, display_plain hclosing.1 hclosing.2]

theorem all_links_eq_isEmpty {fields : List (String × Value)}
    (h : "_links" ∉ keysOfFields fields) :
    (fields.all fun field => field.1 = "_links") = fields.isEmpty := by
  cases fields with
  | nil => rfl
  | cons field fields =>
    obtain ⟨key, value⟩ := field
    have hkey : key ≠ "_links" := by
      rintro rfl
      exact h List.mem_cons_self
    simp [hkey]

mutual

/-- Without links the markup is displayed as the text of the value. -/
theorem displayedAs_createJson (depth : ℕ) : ∀ v : Value, v.Unlinked →
    DisplayedAs (createJson none (pad depth) v) (shown depth v)
  | .null, _ => displayedAs_null none _
  | .bool b, _ => displayedAs_bool none _ b
  | .number n, _ => displayedAs_number none _ n
  | .string s, _ => displayedAs_string none _ s
  | .array items, h => by
    have hitems := displayedAs_createItems depth (.array items) 0 items rfl h
    rw [createJson_array, shown_array]
    exact displayedAs_brackets (by decide) (by decide) depth hitems
  | .object fields, h => by
    have hfields := displayedAs_createFields depth fields h
    rw [createJson_object, shown_object]
    exact displayedAs_brackets (by decide) (by decide) depth hfields

theorem displayedAs_createItems (depth : ℕ) (value : Value) (i : ℕ) : ∀ items : List Value,
    value.ownLinks = none → "_links" ∉ keysOfItems items →
    DisplayedAs (createItems value none (pad depth) i items) (shownItems depth items)
  | [], _, _ => ⟨[], rfl, fun _ => rfl⟩
  | item :: rest, hvalue, h => by
    rw [keysOfItems, List.mem_append, not_or] at h
    obtain ⟨text, htext, hitem⟩ := displayedAs_createJson (depth + 1) item h.1
    obtain ⟨s, hs, hrest⟩ := displayedAs_createItems depth value (i + 1) rest hvalue h.2
    have hinner : innerLinks value none (toString i) = .ok none := by
      rw [innerLinks, hvalue]
      rfl
    refine ⟨pad (depth + 1) ++ (text ++ (comma rest.isEmpty ++ '\n' :: s)), ?_, fun tail => ?_⟩
    · rw [createItems_cons, hinner, pad_succ]
      simp [htext, hs]
    · simp only [List.cons_append, List.append_assoc, shownItems_cons]
      rw [display_pad, hitem, display_comma, hrest]

theorem displayedAs_createFields (depth : ℕ) : ∀ fields : List (String × Value),
    "_links" ∉ keysOfFields fields →
    DisplayedAs (createFields none (pad depth) fields) (shownFields depth fields)
  | [], _ => ⟨[], rfl, fun _ => rfl⟩
  | (key, value) :: rest, h => by
    simp only [keysOfFields, List.mem_cons, List.mem_append, not_or] at h
    obtain ⟨hkey, hvalue, hunlinked⟩ := h
    obtain ⟨keyText, hkeyText, hkeyShown⟩ := displayedAs_key key
    obtain ⟨text, htext, hvalueShown⟩ := displayedAs_createJson (depth + 1) value hvalue
    obtain ⟨s, hs, hrest⟩ := displayedAs_createFields depth rest hunlinked
    have hinner : innerLinks value none key = .ok none := Value.Unlinked.innerLinks hvalue key
    have hcolon : ∀ tail, display (": ".toList ++ tail) = ": ".toList ++ display tail :=
      display_append (by simp)
    refine ⟨pad (depth + 1) ++ (keyText ++ (": ".toList ++ (text ++
      (comma rest.isEmpty ++ '\n' :: s)))), ?_, fun tail => ?_⟩
    · rw [createFields_cons _ _ (Ne.symm hkey), hinner, pad_succ, hkeyText,
        all_links_eq_isEmpty hunlinked]
      simp [htext, hs]
    · simp only [List.cons_append, List.append_assoc, shownFields_cons]
      rw [display_pad, hkeyShown, hcolon, hvalueShown, display_comma, hrest]

end

end Shown

end RustExperiments.Http
