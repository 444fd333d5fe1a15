/- module: RustExperiments/Http/Shown
   digest: When the displayed text determines the value, and scalars are displayed as literals. -/

import RustExperiments.Http.Displayed

set_option autoImplicit false
set_option relaxedAutoImplicit false

namespace RustExperiments.Http

open RustExperiments.Lib

section Scalars

/-- The literal of JSON, as `JSON.stringify` writes it. -/
def Scalar.literal : Scalar → List Char
  | .null => "null".toList
  | .bool b => if b then "true".toList else "false".toList
  | .number n => n.toText
  | .string s => Json.quote s

mutual

def Value.scalars : Value → List Scalar
  | .null => [.null]
  | .bool b => [.bool b]
  | .number n => [.number n]
  | .string s => [.string s]
  | .array items => scalarsOfItems items
  | .object fields => scalarsOfFields fields

def scalarsOfItems : List Value → List Scalar
  | [] => []
  | item :: rest => item.scalars ++ scalarsOfItems rest

def scalarsOfFields : List (String × Value) → List Scalar
  | [] => []
  | (_, value) :: rest => value.scalars ++ scalarsOfFields rest

end

/-- A character that stands for itself in a string literal. -/
def PlainChar (c : Char) : Prop := c ≠ '"' ∧ c ≠ '\\' ∧ 32 ≤ c.toNat

/-- Neither `false` nor a string in which something has to be escaped. -/
def Scalar.Plain : Scalar → Prop
  | .bool b => b = true
  | .string s => ∀ c ∈ s.toList, PlainChar c
  | _ => True

theorem escapeChar_of_plain {c : Char} (h : PlainChar c) : Json.escapeChar c = [c] := by
  obtain ⟨hquote, hslash, hcontrol⟩ := h
  have hne : ∀ d : Char, d.toNat < 32 → c ≠ d := by
    rintro d hd rfl
    omega
  rw [Json.escapeChar, if_neg hquote, if_neg hslash, if_neg (hne _ (by decide)),
    if_neg (hne _ (by decide)), if_neg (hne _ (by decide)), if_neg (hne _ (by decide)),
    if_neg (hne _ (by decide)), if_neg (Nat.not_lt.mpr hcontrol)]

theorem length_escapeChar {c : Char} (h : ¬ PlainChar c) : 2 ≤ (Json.escapeChar c).length := by
  unfold Json.escapeChar
  split_ifs with hquote hslash hb ht hn hf hr hcontrol
  · decide
  · decide
  · decide
  · decide
  · decide
  · decide
  · decide
  · exact Nat.le_add_left 2 4
  · exact absurd ⟨hquote, hslash, Nat.le_of_not_lt hcontrol⟩ h

theorem length_le_escape (s : List Char) : s.length ≤ (Json.escape s).length := by
  induction s with
  | nil => exact Nat.le_refl 0
  | cons c s ih =>
    have hchar : 1 ≤ (Json.escapeChar c).length := by
      by_cases h : PlainChar c
      · rw [escapeChar_of_plain h]
        exact Nat.le_refl 1
      · exact Nat.le_of_succ_le (length_escapeChar h)
    rw [Json.escape, List.flatMap_cons, List.length_append, List.length_cons, ← Json.escape]
    omega

theorem escape_eq_self_iff (s : List Char) : Json.escape s = s ↔ ∀ c ∈ s, PlainChar c := by
  induction s with
  | nil => simp [Json.escape]
  | cons c s ih =>
    rw [Json.escape, List.flatMap_cons, ← Json.escape, List.forall_mem_cons, ← ih]
    by_cases h : PlainChar c
    · rw [escapeChar_of_plain h]
      simp [h]
    · constructor
      · intro heq
        have hlength := congrArg List.length heq
        have hchar := length_escapeChar h
        have hrest := length_le_escape s
        rw [List.length_append, List.length_cons] at hlength
        omega
      · exact fun hplain => absurd hplain.1 h

/-- What the page shows for `createJson(v, null, '')`. -/
def displayed (v : Value) : Except Stop (List Char) := (createJson none [] v).map display

theorem DisplayedAs.map_display {markup : Except Stop (List Char)} {text : List Char}
    (h : DisplayedAs markup text) : markup.map display = .ok text := by
  obtain ⟨s, rfl, hdisplay⟩ := h
  have htext := hdisplay []
  rw [List.append_nil, display_nil, List.append_nil] at htext
  rw [Except.map, htext]

theorem displayed_eq {v : Value} (h : v.Unlinked) : displayed v = .ok (shown 0 v) :=
  (displayedAs_createJson 0 v h).map_display

theorem Scalar.length_shown_le (s : Scalar) : s.shown.length ≤ s.literal.length := by
  cases s with
  | null => exact Nat.le_refl _
  | bool b => cases b <;> decide
  | number n => exact Nat.le_refl _
  | string s =>
    have hescape := length_le_escape s.toList
    simpa [Scalar.shown, Scalar.literal, Json.quote] using hescape

theorem Scalar.shown_eq_literal_iff (s : Scalar) : s.shown = s.literal ↔ s.Plain := by
  cases s with
  | null => simp [Scalar.shown, Scalar.literal, Scalar.Plain]
  | number n => simp [Scalar.shown, Scalar.literal, Scalar.Plain]
  | bool b => cases b <;> simp [Scalar.shown, Scalar.literal, Scalar.Plain]
  | string s =>
    rw [Scalar.Plain, ← escape_eq_self_iff]
    change '"' :: (s.toList ++ ['"']) = '"' :: (Json.escape s.toList ++ ['"']) ↔ _
    rw [List.cons_inj_right, List.append_left_inj, eq_comm]

end Scalars

section Places

variable {f g : Scalar → List Char}

mutual

theorem length_layout_le (hle : ∀ s, (f s).length ≤ (g s).length) (depth : ℕ) :
    ∀ v : Value, (layout f depth v).length ≤ (layout g depth v).length
  | .null => hle .null
  | .bool b => hle (.bool b)
  | .number n => hle (.number n)
  | .string s => hle (.string s)
  | .array items => by
    have hitems := length_layoutItems_le hle depth items
    simpa [layout] using hitems
  | .object fields => by
    have hfields := length_layoutFields_le hle depth fields
    simpa [layout] using hfields

theorem length_layoutItems_le (hle : ∀ s, (f s).length ≤ (g s).length) (depth : ℕ) :
    ∀ items : List Value, (layoutItems f depth items).length ≤ (layoutItems g depth items).length
  | [] => Nat.le_refl 0
  | item :: rest => by
    have hitem := length_layout_le hle (depth + 1) item
    have hrest := length_layoutItems_le hle depth rest
    simp only [layoutItems, List.length_append, List.length_cons]
    omega

theorem length_layoutFields_le (hle : ∀ s, (f s).length ≤ (g s).length) (depth : ℕ) :
    ∀ fields : List (String × Value),
      (layoutFields f depth fields).length ≤ (layoutFields g depth fields).length
  | [] => Nat.le_refl 0
  | (key, value) :: rest => by
    have hvalue := length_layout_le hle (depth + 1) value
    have hrest := length_layoutFields_le hle depth rest
    simp only [layoutFields, List.length_append, List.length_cons]
    omega

end

theorem line_eq_line_iff {a a' b b' : List Char} (last : Bool) (ha : a.length ≤ a'.length)
    (hb : b.length ≤ b'.length) :
    a ++ (comma last ++ '\n' :: b) = a' ++ (comma last ++ '\n' :: b') ↔ a = a' ∧ b = b' := by
  constructor
  · intro h
    have hlength := congrArg List.length h
    simp only [List.length_append, List.length_cons] at hlength
    obtain ⟨rfl, hrest⟩ := List.append_inj h (by omega)
    exact ⟨rfl, (List.cons.inj (List.append_cancel_left hrest)).2⟩
  · rintro ⟨rfl, rfl⟩
    rfl

mutual

/-- Where no scalar is longer in the first writing, the texts are the same only if every scalar
is written the same. -/
theorem layout_eq_iff (hle : ∀ s, (f s).length ≤ (g s).length) (depth : ℕ) :
    ∀ v : Value, layout f depth v = layout g depth v ↔ ∀ s ∈ v.scalars, f s = g s
  | .null => by simp [layout, Value.scalars]
  | .bool b => by simp [layout, Value.scalars]
  | .number n => by simp [layout, Value.scalars]
  | .string s => by simp [layout, Value.scalars]
  | .array items => by
    rw [Value.scalars, ← layoutItems_eq_iff hle depth items]
    simp [layout]
  | .object fields => by
    rw [Value.scalars, ← layoutFields_eq_iff hle depth fields]
    simp [layout]

theorem layoutItems_eq_iff (hle : ∀ s, (f s).length ≤ (g s).length) (depth : ℕ) :
    ∀ items : List Value,
      layoutItems f depth items = layoutItems g depth items ↔ ∀ s ∈ scalarsOfItems items, f s = g s
  | [] => by simp [layoutItems, scalarsOfItems]
  | item :: rest => by
    have hitem := length_layout_le hle (depth + 1) item
    have hrest := length_layoutItems_le hle depth rest
    rw [scalarsOfItems, List.forall_mem_append, ← layout_eq_iff hle (depth + 1) item,
      ← layoutItems_eq_iff hle depth rest, layoutItems, layoutItems, List.append_right_inj,
      line_eq_line_iff _ hitem hrest]

theorem layoutFields_eq_iff (hle : ∀ s, (f s).length ≤ (g s).length) (depth : ℕ) :
    ∀ fields : List (String × Value), layoutFields f depth fields = layoutFields g depth fields ↔
      ∀ s ∈ scalarsOfFields fields, f s = g s
  | [] => by simp [layoutFields, scalarsOfFields]
  | (key, value) :: rest => by
    have hvalue := length_layout_le hle (depth + 1) value
    have hrest := length_layoutFields_le hle depth rest
    rw [scalarsOfFields, List.forall_mem_append, ← layout_eq_iff hle (depth + 1) value,
      ← layoutFields_eq_iff hle depth rest, layoutFields, layoutFields, List.append_right_inj,
      List.append_right_inj, List.append_right_inj,
      line_eq_line_iff _ hvalue hrest]

end

/-- The text of a value with the literal of each scalar at its place. -/
def literalText (v : Value) : List Char := layout Scalar.literal 0 v

def Value.Plain (v : Value) : Prop := ∀ s ∈ v.scalars, s.Plain

theorem displayed_eq_literalText_iff {v : Value} (h : v.Unlinked) :
    displayed v = .ok (literalText v) ↔ v.Plain := by
  rw [displayed_eq h, Except.ok.injEq, shown, literalText,
    layout_eq_iff Scalar.length_shown_le 0 v]
  exact forall₂_congr fun s _ => s.shown_eq_literal_iff

end Places

section Lines

/-- What the first line of a value begins with: a quoted text, or a word without blanks. -/
inductive Opening : List Char → Prop where
  | word {o : List Char} (nonempty : o ≠ []) (h : ∀ c ∈ o, c ≠ ' ' ∧ c ≠ ',' ∧ c ≠ '"') : Opening o
  | quoted {s : List Char} (h : '"' ∉ s) : Opening ('"' :: (s ++ ['"']))

def dropComma : List Char → List Char
  | ',' :: cs => cs
  | cs => cs

/-- The key at the front of a line, found from its end. -/
def cutKey (line : List Char) : List Char :=
  let r := dropComma line.reverse
  let r := if r.head? = some '"' then (r.tail.dropWhile (· != '"')).tail
    else r.dropWhile (· != ' ')
  (r.drop 2).reverse

theorem Opening.last_ne_comma {o : List Char} (h : Opening o) :
    ∀ c ∈ o.reverse.head?, c ≠ ',' := by
  cases h with
  | word nonempty h =>
    intro c hc
    exact (h c (List.mem_reverse.mp (List.mem_of_head? hc))).2.1
  | quoted h => simp

theorem Opening.ne_nil {o : List Char} (h : Opening o) : o ≠ [] := by
  cases h with
  | word nonempty _ => exact nonempty
  | quoted _ => exact List.cons_ne_nil _ _

theorem dropComma_reverse {o : List Char} (h : Opening o) (last : Bool) (rest : List Char) :
    dropComma ((comma last).reverse ++ (o.reverse ++ rest)) = o.reverse ++ rest := by
  cases last with
  | false => rfl
  | true =>
    obtain ⟨c, cs, hreverse⟩ := List.exists_cons_of_ne_nil
      (fun hnil => h.ne_nil (List.reverse_eq_nil_iff.mp hnil) : o.reverse ≠ [])
    have hc : c ≠ ',' := h.last_ne_comma c (by rw [hreverse]; rfl)
    change dropComma (o.reverse ++ rest) = _
    rw [hreverse, List.cons_append]
    simp [dropComma, hc]

/-- In a line of an object the key can be told, although it may contain colons itself. -/
theorem cutKey_line (key : List Char) {o : List Char} (h : Opening o) (last : Bool) :
    cutKey (key ++ (": ".toList ++ (o ++ comma last))) = key := by
  have hreverse : (key ++ (": ".toList ++ (o ++ comma last))).reverse =
      (comma last).reverse ++ (o.reverse ++ (' ' :: ':' :: key.reverse)) := by
    simp [List.reverse_append]
  rw [cutKey, hreverse, dropComma_reverse h]
  cases h with
  | @word o nonempty h =>
    have hhead : (o.reverse ++ ' ' :: ':' :: key.reverse).head? ≠ some '"' := by
      obtain ⟨c, cs, hcs⟩ := List.exists_cons_of_ne_nil
        (fun hnil => nonempty (List.reverse_eq_nil_iff.mp hnil) : o.reverse ≠ [])
      have hc := (h c (List.mem_reverse.mp (by rw [hcs]; exact List.mem_cons_self))).2.2
      rw [hcs, List.cons_append, List.head?_cons]
      exact fun heq => hc (Option.some.inj heq)
    have hdrop : (o.reverse ++ ' ' :: ':' :: key.reverse).dropWhile (· != ' ') =
        ' ' :: ':' :: key.reverse := by
      apply Json.dropWhile_append_of_head
      · intro c hc
        rw [bne_iff_ne]
        exact (h c (List.mem_reverse.mp hc)).1
      · intro c hc
        cases hc
        rfl
    simp only [if_neg hhead, hdrop, List.drop_succ_cons, List.drop_zero, List.reverse_reverse]
  | @quoted s h =>
    have htext : ('"' :: (s ++ ['"'])).reverse ++ ' ' :: ':' :: key.reverse =
        '"' :: (s.reverse ++ '"' :: ' ' :: ':' :: key.reverse) := by
      simp
    have hdrop : (s.reverse ++ '"' :: ' ' :: ':' :: key.reverse).dropWhile (· != '"') =
        '"' :: ' ' :: ':' :: key.reverse := by
      apply Json.dropWhile_append_of_head
      · intro c hc
        rw [bne_iff_ne]
        rintro rfl
        exact h (List.mem_reverse.mp hc)
      · intro c hc
        cases hc
        rfl
    rw [htext]
    simp only [List.head?_cons, if_true, List.tail_cons, hdrop, List.drop_succ_cons,
      List.drop_zero, List.reverse_reverse]

structure Clean (scalars : List Scalar) (keys : List String) : Prop where
  plain : ∀ s ∈ scalars, s.Plain
  oneLine : ∀ k ∈ keys, '\n' ∉ k.toList

theorem clean_append_iff {scalars scalars' : List Scalar} {keys keys' : List String} :
    Clean (scalars ++ scalars') (keys ++ keys') ↔ Clean scalars keys ∧ Clean scalars' keys' := by
  constructor
  · intro h
    exact ⟨⟨fun s hs => h.plain s (List.mem_append_left _ hs),
        fun k hk => h.oneLine k (List.mem_append_left _ hk)⟩,
      fun s hs => h.plain s (List.mem_append_right _ hs),
      fun k hk => h.oneLine k (List.mem_append_right _ hk)⟩
  · rintro ⟨h, h'⟩
    exact ⟨fun s hs => (List.mem_append.mp hs).elim (h.plain s) (h'.plain s),
      fun k hk => (List.mem_append.mp hk).elim (h.oneLine k) (h'.oneLine k)⟩

theorem clean_fields {key : String} {value : Value} {fields : List (String × Value)}
    (h : Clean (scalarsOfFields ((key, value) :: fields)) (keysOfFields ((key, value) :: fields))) :
    '\n' ∉ key.toList ∧ Clean value.scalars value.keys ∧
      Clean (scalarsOfFields fields) (keysOfFields fields) := by
  refine ⟨h.oneLine key List.mem_cons_self, clean_append_iff.mp ⟨h.plain, fun k hk => ?_⟩⟩
  exact h.oneLine k (List.mem_cons_of_mem key hk)

theorem PlainChar.ne_newline {c : Char} (h : PlainChar c) : c ≠ '\n' := by
  rintro rfl
  exact absurd h.2.2 (by decide)

theorem opening_number (n : JsNumber) : Opening n.toText ∧ '\n' ∉ n.toText := by
  have hne : ∀ c ∈ n.toText, ∀ d : Char, JsNumber.isNumeral d = false → c ≠ d := by
    rintro c hc d hd rfl
    rw [JsNumber.isNumeral_of_mem_toText hc] at hd
    cases hd
  refine ⟨.word n.toText_ne_nil fun c hc => ⟨?_, ?_, ?_⟩, fun hc => hne _ hc '\n' (by decide) rfl⟩
  · exact hne c hc ' ' (by decide)
  · exact hne c hc ',' (by decide)
  · exact hne c hc '"' (by decide)

theorem opening_string {s : String} (h : ∀ c ∈ s.toList, PlainChar c) :
    Opening ('"' :: (s.toList ++ ['"'])) ∧ '\n' ∉ '"' :: (s.toList ++ ['"']) := by
  refine ⟨.quoted fun hc => (h _ hc).1 rfl, ?_⟩
  have hbody : '\n' ∉ s.toList := fun hc => (h _ hc).ne_newline rfl
  simp [hbody]

theorem takeWhile_opening {o : List Char} (h : '\n' ∉ o) (last : Bool) (rest : List Char) :
    (o ++ (comma last ++ '\n' :: rest)).takeWhile (· != '\n') = o ++ comma last := by
  rw [← List.append_assoc]
  apply takeWhile_before
  cases last <;> simp [comma, h]

theorem shown_line {v : Value} (h : Clean v.scalars v.keys) (depth : ℕ) (last : Bool) :
    ∃ o last', Opening o ∧ ∀ rest, (shown depth v ++ (comma last ++ '\n' :: rest)).takeWhile
      (· != '\n') = o ++ comma last' := by
  cases v with
  | null =>
    have hline : '\n' ∉ "null".toList := by decide
    exact ⟨"null".toList, last, .word (by decide) (by simp), takeWhile_opening hline last⟩
  | bool b =>
    have hline : '\n' ∉ "true".toList := by decide
    exact ⟨"true".toList, last, .word (by decide) (by simp), takeWhile_opening hline last⟩
  | number n =>
    obtain ⟨hopening, hline⟩ := opening_number n
    exact ⟨n.toText, last, hopening, takeWhile_opening hline last⟩
  | string s =>
    obtain ⟨hopening, hline⟩ := opening_string (h.plain (.string s) List.mem_cons_self)
    exact ⟨_, last, hopening, takeWhile_opening hline last⟩
  | array items => exact ⟨['['], true, .word (by decide) (by simp), fun _ => rfl⟩
  | object fields => exact ⟨['{'], true, .word (by decide) (by simp), fun _ => rfl⟩

theorem key_eq_of_shown_eq {key key' : List Char} (hkey : '\n' ∉ key) (hkey' : '\n' ∉ key')
    {v w : Value} (hv : Clean v.scalars v.keys) (hw : Clean w.scalars w.keys) {depth : ℕ}
    {last last' : Bool} {rest rest' : List Char}
    (h : key ++ (": ".toList ++ (shown depth v ++ (comma last ++ '\n' :: rest))) =
      key' ++ (": ".toList ++ (shown depth w ++ (comma last' ++ '\n' :: rest')))) : key = key' := by
  obtain ⟨o, l, hopening, hline⟩ := shown_line hv depth last
  obtain ⟨o', l', hopening', hline'⟩ := shown_line hw depth last'
  have hfront : ∀ {k : List Char}, '\n' ∉ k → ∀ text : List Char,
      (k ++ (": ".toList ++ text)).takeWhile (· != '\n') =
        k ++ (": ".toList ++ text.takeWhile (· != '\n')) := by
    intro k hk text
    rw [List.takeWhile_append_of_pos, List.takeWhile_append_of_pos (by simp)]
    intro c hc
    rw [bne_iff_ne]
    rintro rfl
    exact hk hc
  have hlines := congrArg (fun text => cutKey (text.takeWhile (· != '\n'))) h
  simp only [hfront hkey, hfront hkey', hline, hline', cutKey_line _ hopening,
    cutKey_line _ hopening'] at hlines
  exact hlines

end Lines

section Injective

def LineEnd (r : List Char) : Prop := r = [] ∨ ∃ last rest, r = comma last ++ '\n' :: rest

theorem lineEnd_comma (last : Bool) (rest : List Char) : LineEnd (comma last ++ '\n' :: rest) :=
  Or.inr ⟨last, rest, rfl⟩

theorem LineEnd.stop {r : List Char} (h : LineEnd r) :
    ∀ c ∈ r.head?, JsNumber.isNumeral c = false := by
  rcases h with rfl | ⟨last, rest, rfl⟩
  · simp
  · cases last <;> simp [comma] <;> decide

theorem comma_inj {last last' : Bool} {rest rest' : List Char}
    (h : comma last ++ '\n' :: rest = comma last' ++ '\n' :: rest') : rest = rest' := by
  match last, last' with
  | true, true => exact (List.cons.inj h).2
  | false, false => exact (List.cons.inj (List.cons.inj h).2).2
  | true, false => exact absurd (List.cons.inj h).1 (by decide)
  | false, true => exact absurd (List.cons.inj h).1 (by decide)

theorem number_inj {n n' : JsNumber} {r r' : List Char} (hr : LineEnd r) (hr' : LineEnd r')
    (h : n.toText ++ r = n'.toText ++ r') : n = n' ∧ r = r' := by
  have htext := congrArg (List.takeWhile JsNumber.isNumeral) h
  rw [Json.takeWhile_append_of_head (fun _ hc => JsNumber.isNumeral_of_mem_toText hc) hr.stop,
    Json.takeWhile_append_of_head (fun _ hc => JsNumber.isNumeral_of_mem_toText hc) hr'.stop]
    at htext
  rw [htext] at h
  exact ⟨JsNumber.toText_injective htext, List.append_cancel_left h⟩

theorem string_inj {s s' : String} (hs : ∀ c ∈ s.toList, PlainChar c)
    (hs' : ∀ c ∈ s'.toList, PlainChar c) {r r' : List Char}
    (h : s.toList ++ '"' :: r = s'.toList ++ '"' :: r') : s = s' ∧ r = r' := by
  have htext := congrArg (List.takeWhile (· != '"')) h
  rw [takeWhile_before fun hc => (hs _ hc).1 rfl, takeWhile_before fun hc => (hs' _ hc).1 rfl]
    at htext
  rw [htext] at h
  exact ⟨String.toList_inj.mp htext, (List.cons.inj (List.append_cancel_left h)).2⟩

def Value.kind : Value → ℕ
  | .null => 0
  | .bool _ => 1
  | .number _ => 2
  | .string _ => 3
  | .array _ => 4
  | .object _ => 5

def kindOf (c : Char) : ℕ :=
  if c = 'n' then 0 else if c = 't' then 1 else if c = '"' then 3 else if c = '[' then 4
  else if c = '{' then 5 else 2

theorem shown_head (depth : ℕ) (v : Value) :
    ∃ c cs, shown depth v = c :: cs ∧ kindOf c = v.kind := by
  cases v with
  | null => exact ⟨'n', _, rfl, rfl⟩
  | bool b => exact ⟨'t', _, rfl, rfl⟩
  | number n =>
    obtain ⟨c, cs, hcs⟩ := List.exists_cons_of_ne_nil n.toText_ne_nil
    have hnumeral : JsNumber.isNumeral c :=
      JsNumber.isNumeral_of_mem_toText (by rw [hcs]; exact List.mem_cons_self)
    have hne : ∀ d, JsNumber.isNumeral d = false → c ≠ d := by
      rintro d hd rfl
      rw [hnumeral] at hd
      cases hd
    refine ⟨c, cs, hcs, ?_⟩
    rw [kindOf, if_neg (hne _ (by decide)), if_neg (hne _ (by decide)), if_neg (hne _ (by decide)),
      if_neg (hne _ (by decide)), if_neg (hne _ (by decide))]
    rfl
  | string s => exact ⟨'"', _, rfl, rfl⟩
  | array items => exact ⟨'[', _, rfl, rfl⟩
  | object fields => exact ⟨'{', _, rfl, rfl⟩

theorem kind_eq_of_shown_eq {depth : ℕ} {v w : Value} {r r' : List Char}
    (h : shown depth v ++ r = shown depth w ++ r') : v.kind = w.kind := by
  obtain ⟨c, cs, hv, hkind⟩ := shown_head depth v
  obtain ⟨c', cs', hw, hkind'⟩ := shown_head depth w
  rw [hv, hw, List.cons_append, List.cons_append] at h
  rw [← hkind, ← hkind', (List.cons.inj h).1]

theorem pad_succ_ne {depth : ℕ} {c : Char} (hc : c ≠ ' ') {r r' : List Char} :
    pad (depth + 1) ++ r ≠ pad depth ++ c :: r' := by
  rw [← pad_succ, List.append_assoc]
  intro h
  exact hc (List.cons.inj (List.append_cancel_left h)).1.symm

mutual

theorem shown_inj (depth : ℕ) : ∀ v : Value, Clean v.scalars v.keys →
    ∀ w : Value, Clean w.scalars w.keys → ∀ r r', LineEnd r → LineEnd r' →
    shown depth v ++ r = shown depth w ++ r' → v = w ∧ r = r'
  | .null, _, w, _, r, r', _, _, h => by
    have hkind := kind_eq_of_shown_eq h
    cases w with
    | null => exact ⟨rfl, List.append_cancel_left h⟩
    | _ => cases hkind
  | .bool b, hv, w, hw, r, r', _, _, h => by
    have hkind := kind_eq_of_shown_eq h
    cases w with
    | bool b' =>
      have hb : b = true := hv.plain (.bool b) List.mem_cons_self
      have hb' : b' = true := hw.plain (.bool b') List.mem_cons_self
      rw [hb, hb']
      exact ⟨rfl, List.append_cancel_left h⟩
    | _ => cases hkind
  | .number n, _, w, _, r, r', hr, hr', h => by
    have hkind := kind_eq_of_shown_eq h
    cases w with
    | number n' =>
      obtain ⟨rfl, hrest⟩ := number_inj hr hr' h
      exact ⟨rfl, hrest⟩
    | _ => cases hkind
  | .string s, hv, w, hw, r, r', _, _, h => by
    have hkind := kind_eq_of_shown_eq h
    cases w with
    | string s' =>
      have hs := hv.plain (.string s) List.mem_cons_self
      have hs' := hw.plain (.string s') List.mem_cons_self
      have hbody : s.toList ++ '"' :: r = s'.toList ++ '"' :: r' := by
        simpa [shown, layout, Scalar.shown] using h
      obtain ⟨rfl, hrest⟩ := string_inj hs hs' hbody
      exact ⟨rfl, hrest⟩
    | _ => cases hkind
  | .array items, hv, w, hw, r, r', _, _, h => by
    have hkind := kind_eq_of_shown_eq h
    cases w with
    | array items' =>
      simp only [shown_array, List.cons_append, List.append_assoc, List.cons.injEq, true_and,
        List.nil_append] at h
      obtain ⟨rfl, hrest⟩ := shownItems_inj depth items hv items' hw r r' h
      exact ⟨rfl, hrest⟩
    | _ => cases hkind
  | .object fields, hv, w, hw, r, r', _, _, h => by
    have hkind := kind_eq_of_shown_eq h
    cases w with
    | object fields' =>
      simp only [shown_object, List.cons_append, List.append_assoc, List.cons.injEq, true_and,
        List.nil_append] at h
      obtain ⟨rfl, hrest⟩ := shownFields_inj depth fields hv fields' hw r r' h
      exact ⟨rfl, hrest⟩
    | _ => cases hkind

theorem shownItems_inj (depth : ℕ) : ∀ vs : List Value,
    Clean (scalarsOfItems vs) (keysOfItems vs) →
    ∀ ws : List Value, Clean (scalarsOfItems ws) (keysOfItems ws) → ∀ r r',
    shownItems depth vs ++ (pad depth ++ ']' :: r) =
      shownItems depth ws ++ (pad depth ++ ']' :: r') → vs = ws ∧ r = r'
  | [], _, [], _, r, r', h => by
    exact ⟨rfl, (List.cons.inj (List.append_cancel_left h)).2⟩
  | [], _, w :: ws, _, r, r', h => by
    rw [shownItems_cons, List.append_assoc] at h
    exact absurd h.symm (pad_succ_ne (by decide))
  | v :: vs, _, [], _, r, r', h => by
    rw [shownItems_cons, List.append_assoc] at h
    exact absurd h (pad_succ_ne (by decide))
  | v :: vs, hv, w :: ws, hw, r, r', h => by
    obtain ⟨hitem, hvs⟩ := clean_append_iff.mp hv
    obtain ⟨hitem', hws⟩ := clean_append_iff.mp hw
    simp only [shownItems_cons, List.append_assoc, List.cons_append] at h
    obtain ⟨rfl, hline⟩ := shown_inj (depth + 1) v hitem w hitem' _ _ (lineEnd_comma _ _)
      (lineEnd_comma _ _) (List.append_cancel_left h)
    obtain ⟨rfl, hrest⟩ := shownItems_inj depth vs hvs ws hws r r' (comma_inj hline)
    exact ⟨rfl, hrest⟩

theorem shownFields_inj (depth : ℕ) : ∀ vs : List (String × Value),
    Clean (scalarsOfFields vs) (keysOfFields vs) →
    ∀ ws : List (String × Value), Clean (scalarsOfFields ws) (keysOfFields ws) → ∀ r r',
    shownFields depth vs ++ (pad depth ++ '}' :: r) =
      shownFields depth ws ++ (pad depth ++ '}' :: r') → vs = ws ∧ r = r'
  | [], _, [], _, r, r', h => by
    exact ⟨rfl, (List.cons.inj (List.append_cancel_left h)).2⟩
  | [], _, (key, w) :: ws, _, r, r', h => by
    rw [shownFields_cons, List.append_assoc] at h
    exact absurd h.symm (pad_succ_ne (by decide))
  | (key, v) :: vs, _, [], _, r, r', h => by
    rw [shownFields_cons, List.append_assoc] at h
    exact absurd h (pad_succ_ne (by decide))
  | (key, v) :: vs, hv, (key', w) :: ws, hw, r, r', h => by
    obtain ⟨hkey, hvalue, hvs⟩ := clean_fields hv
    obtain ⟨hkey', hvalue', hws⟩ := clean_fields hw
    simp only [shownFields_cons, List.append_assoc, List.cons_append] at h
    have hfield := List.append_cancel_left h
    have hsame : key = key' :=
      String.toList_inj.mp (key_eq_of_shown_eq hkey hkey' hvalue hvalue' hfield)
    subst hsame
    obtain ⟨rfl, hline⟩ := shown_inj (depth + 1) v hvalue w hvalue' _ _ (lineEnd_comma _ _)
      (lineEnd_comma _ _) (List.append_cancel_left (List.append_cancel_left hfield))
    obtain ⟨rfl, hrest⟩ := shownFields_inj depth vs hvs ws hws r r' (comma_inj hline)
    exact ⟨rfl, hrest⟩

end

end Injective

section Determined

def Value.OneLine (v : Value) : Prop := ∀ k ∈ v.keys, '\n' ∉ k.toList

/-- Two values are told apart, and each scalar in them is displayed as its literal. -/
def Shows (v w : Value) : Prop :=
  (displayed v = displayed w → v = w) ∧ displayed v = .ok (literalText v) ∧
    displayed w = .ok (literalText w)

theorem eq_of_displayed_eq {v w : Value} (hv : v.Unlinked) (hw : w.Unlinked)
    (cleanv : Clean v.scalars v.keys) (cleanw : Clean w.scalars w.keys)
    (h : displayed v = displayed w) : v = w := by
  rw [displayed_eq hv, displayed_eq hw, Except.ok.injEq] at h
  have hshown : shown 0 v ++ [] = shown 0 w ++ [] := by rw [h]
  exact (shown_inj 0 v cleanv w cleanw [] [] (Or.inl rfl) (Or.inl rfl) hshown).1

theorem plain_of_shows {v w : Value} (hv : v.Unlinked) (hw : w.Unlinked) (h : Shows v w) :
    v.Plain ∧ w.Plain := by
  obtain ⟨_, htext, htext'⟩ := h
  exact ⟨(displayed_eq_literalText_iff hv).mp htext, (displayed_eq_literalText_iff hw).mp htext'⟩

theorem shows_of_plain {v w : Value} (hv : v.Unlinked) (hw : w.Unlinked) (linesv : v.OneLine)
    (linesw : w.OneLine) (plainv : v.Plain) (plainw : w.Plain) : Shows v w :=
  ⟨eq_of_displayed_eq hv hw ⟨plainv, linesv⟩ ⟨plainw, linesw⟩,
    (displayed_eq_literalText_iff hv).mpr plainv, (displayed_eq_literalText_iff hw).mpr plainw⟩

/-- The text of a first field with the key of the second one, as if all of it were a key. -/
def joinedKey (k : String) (x : Value) (k' : String) : String :=
  String.ofList (k.toList ++ (": ".toList ++ (shown 1 x ++ (",\n  ".toList ++ k'.toList))))

theorem shown_joinedKey (k k' : String) (x x' : Value) :
    shown 0 (.object [(joinedKey k x k', x')]) = shown 0 (.object [(k, x), (k', x')]) := by
  simp only [shown_object, shownFields_cons, joinedKey, String.toList_ofList, List.append_assoc,
    List.cons_append]
  rfl

theorem newline_mem_joinedKey (k k' : String) (x : Value) :
    '\n' ∈ (joinedKey k x k').toList := by
  simp [joinedKey]

theorem joinedKey_ne_links (k k' : String) (x : Value) : joinedKey k x k' ≠ "_links" := by
  intro heq
  have hmem := newline_mem_joinedKey k k' x
  rw [heq] at hmem
  exact absurd hmem (by decide)

theorem unlinked_singleton {k : String} {x : Value} (hk : k ≠ "_links") (hx : x.Unlinked) :
    (Value.object [(k, x)]).Unlinked := by
  rw [Value.Unlinked] at hx ⊢
  simp [Value.keys, keysOfFields, hk.symm, hx]

theorem unlinked_pair {k k' : String} {x x' : Value} (hk : k ≠ "_links") (hk' : k' ≠ "_links")
    (hx : x.Unlinked) (hx' : x'.Unlinked) : (Value.object [(k, x), (k', x')]).Unlinked := by
  rw [Value.Unlinked] at hx hx' ⊢
  simp [Value.keys, keysOfFields, hk.symm, hk'.symm, hx, hx']

/-- Among values whose keys have no line break, the page shows the two that it was given when
nothing is `false` and no string needs an escape, and only then; the latter holds whatever the
keys are. A line break in keys cannot be admitted: the two values under any two keys are displayed
like the second one alone, under a key with a line break. -/
theorem createJson_shows_iff (v w : Value) (hv : v.Unlinked) (hw : w.Unlinked) :
    (v.OneLine → w.OneLine → (Shows v w ↔ v.Plain ∧ w.Plain)) ∧
      (Shows v w → v.Plain ∧ w.Plain) ∧
      ∀ k k' : String, k ≠ "_links" → k' ≠ "_links" →
        ∃ joined : String, '\n' ∈ joined.toList ∧ joined ≠ "_links" ∧
          displayed (.object [(k, v), (k', w)]) = displayed (.object [(joined, w)]) := by
  refine ⟨fun linesv linesw => ⟨plain_of_shows hv hw, ?_⟩, plain_of_shows hv hw,
    fun k k' hk hk' => ?_⟩
  · rintro ⟨plainv, plainw⟩
    exact shows_of_plain hv hw linesv linesw plainv plainw
  · have hjoined := joinedKey_ne_links k k' v
    refine ⟨joinedKey k v k', newline_mem_joinedKey k k' v, hjoined, ?_⟩
    rw [displayed_eq (unlinked_pair hk hk' hv hw), displayed_eq (unlinked_singleton hjoined hw),
      shown_joinedKey]

theorem createJson_shows_list :
    Shows (.array [.null, .string "a: <b>", .object []])
      (.object [("a: ", .bool true), ("n", .number (.decimal true 7 1 (Double.closest_digit
        (by decide) (by decide))))]) := by
  refine ((createJson_shows_iff _ _ (by decide) (by simp [Value.Unlinked, Value.keys,
    keysOfFields])).1 ?_ ?_).mpr ⟨?_, ?_⟩
  · simp [Value.OneLine, Value.keys, keysOfItems, keysOfFields]
  · simp [Value.OneLine, Value.keys, keysOfFields]
  · simp [Value.Plain, Value.scalars, scalarsOfItems, scalarsOfFields, Scalar.Plain, PlainChar]
  · simp [Value.Plain, Value.scalars, scalarsOfFields, Scalar.Plain]

/-- `false` is displayed as `true` wherever it stands, two strings as one, and two fields as one. -/
theorem createJson_does_not_show :
    (displayed (.bool false) = displayed (.bool true) ∧ Value.bool false ≠ .bool true ∧
      displayed (.bool false) ≠ .ok "false".toList) ∧
    (displayed (.array [.bool false]) = .ok "[\n  true\n]".toList ∧
      literalText (.array [.bool false]) = "[\n  false\n]".toList) ∧
    (displayed (.array [.string "a", .string "b"]) = displayed (.array [.string "a\",\n  \"b"]) ∧
      Value.array [.string "a", .string "b"] ≠ .array [.string "a\",\n  \"b"]) ∧
    (displayed (.object [("a", .null), ("b", .null)]) =
        displayed (.object [("a: null,\n  b", .null)]) ∧
      Value.object [("a", .null), ("b", .null)] ≠ .object [("a: null,\n  b", .null)]) := by
  refine ⟨⟨?_, ?_, ?_⟩, ⟨?_, rfl⟩, ⟨?_, ?_⟩, ?_, ?_⟩
  · rw [displayed_eq (by decide), displayed_eq (by decide)]
    rfl
  · intro h
    exact absurd (Value.bool.inj h) (by decide)
  · rw [displayed_eq (by decide), ne_eq, Except.ok.injEq]
    decide
  · rw [displayed_eq (by decide)]
    rfl
  · rw [displayed_eq (by decide), displayed_eq (by decide)]
    rfl
  · intro h
    exact absurd (congrArg List.length (Value.array.inj h)) (by decide)
  · rw [displayed_eq (by decide), displayed_eq (by decide)]
    rfl
  · intro h
    exact absurd (congrArg List.length (Value.object.inj h)) (by decide)

end Determined

end RustExperiments.Http
