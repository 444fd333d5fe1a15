/- module: RustExperiments/Pest/Tokens
   digest: The expression tokenizer accounts for lists of items, and drops what cannot go on. -/

import RustExperiments.Lib.PegExact

set_option autoImplicit false
set_option relaxedAutoImplicit false

namespace RustExperiments.Pest.Tokens

open RustExperiments.Lib.Peg

inductive Rule where
  | alpha
  | digit
  | identifier
  | number
  | plus
  | minus
  | op
  | term
  | toplevel
  deriving DecidableEq, Repr

section Grammar

def isAlpha (c : Char) : Bool := inRange 'a' 'z' c || inRange 'A' 'Z' c

def isDigit (c : Char) : Bool := inRange '0' '9' c

def alpha : Expr Rule Char :=
  .rule .normal .alpha (.choice (.sat (inRange 'a' 'z')) (.sat (inRange 'A' 'Z')))

def digit : Expr Rule Char := .rule .normal .digit (.sat isDigit)

def identifier : Expr Rule Char :=
  .rule .normal .identifier (.seq alpha (.star (.choice alpha digit)))

def number : Expr Rule Char := .rule .normal .number digit.plus

def plus : Expr Rule Char := .rule .normal .plus (.char '+')

def minus : Expr Rule Char := .rule .normal .minus (.char '-')

def op : Expr Rule Char := .rule .normal .op (.choice plus minus)

def term : Expr Rule Char := .rule .silent .term (.choice identifier (.choice number op))

def toplevel : Expr Rule Char :=
  .rule .silent .toplevel (.seq term (.star (.seq (Expr.plus (.char ' ')) term)))

def grammar : Rule → Expr Rule Char
  | .alpha => alpha
  | .digit => digit
  | .identifier => identifier
  | .number => number
  | .plus => plus
  | .minus => minus
  | .op => op
  | .term => term
  | .toplevel => toplevel

/-- `Grammar::parse`: the tokens, where the rule reads a part of the input from its beginning on. -/
def parse (r : Rule) (input : String) : Option (List (Pair Rule Char)) :=
  ((grammar r).parse ⟨0, input.toList⟩).map Prod.fst

/-- The alternatives of `term`, in its order. -/
def kinds : List Rule := [.identifier, .number, .op]

/-- The text from a position on is a list of items with one space or more between them, and nothing
else; the items are given with their rules and their places. -/
inductive Listed : ℕ → List Char → List (Rule × ℕ × List Char) → Prop where
  | last {pos : ℕ} {r : Rule} {w : List Char} (kind : r ∈ kinds)
    (word : w ∈ (grammar r).language) : Listed pos w [(r, pos, w)]
  | more {pos gap : ℕ} {r : Rule} {w s : List Char} {items : List (Rule × ℕ × List Char)}
    (kind : r ∈ kinds) (word : w ∈ (grammar r).language) (space : 0 < gap)
    (rest : Listed (pos + w.length + gap) s items) :
    Listed pos (w ++ (List.replicate gap ' ' ++ s)) ((r, pos, w) :: items)

def span (t : Pair Rule Char) : Rule × ℕ × List Char := (t.rule, t.start, t.text)

/-- The tokenizer succeeds on the lists only, and its tokens are then all of the items. -/
def AccountsFor (s : String) : Prop :=
  ((parse .toplevel s).isSome = true ↔ ∃ items, Listed 0 s.toList items) ∧
    ∀ tokens, parse .toplevel s = some tokens → Listed 0 s.toList (tokens.map span)

end Grammar

section Items

def leading : Rule → Char → Bool
  | .identifier => isAlpha
  | .number => isDigit
  | _ => fun c => decide (c = '+') || decide (c = '-')

def startsItem (c : Char) : Bool :=
  isAlpha c || isDigit c || decide (c = '+') || decide (c = '-')

theorem alpha_class : IsClass alpha isAlpha :=
  ((isClass_sat (inRange 'a' 'z')).choice (isClass_sat (inRange 'A' 'Z'))).rule

theorem digit_class : IsClass digit isDigit := (isClass_sat isDigit).rule

theorem op_class : IsClass op fun c => decide (c = '+') || decide (c = '-') :=
  ((isClass_char '+').rule.choice (isClass_char '-').rule).rule

theorem isDigit_of_isAlpha {c : Char} (h : isAlpha c = true) : isDigit c = false := by
  rcases Bool.or_eq_true_iff.mp h with hlower | hupper
  · exact inRange_disjoint (Or.inr (by decide)) hlower
  · exact inRange_disjoint (Or.inr (by decide)) hupper

structure Worded (r : Rule) : Prop where
  leads : ∀ w ∈ (grammar r).language, ∃ c v, w = c :: v ∧ leading r c = true
  normal : ∃ e, grammar r = .rule .normal r e ∧ Exact e (Avoids fun c => isAlpha c || isDigit c)
  starts : ∀ pos s, ((grammar r).parse ⟨pos, s⟩).isSome = true ↔ ∃ c ∈ s.head?, leading r c = true

theorem identifier_worded : Worded .identifier where
  leads := alpha_class.leads.seq _
  normal := ⟨_, rfl, (alpha_class.exact fun _ => True).seq
    (alpha_class.choice digit_class).star_exact fun _ _ _ _ => trivial⟩
  starts pos s := by
    rw [grammar, identifier, parse_rule_isSome, parse_seq_star_isSome]
    exact alpha_class.isSome_iff

theorem number_worded : Worded .number where
  leads := digit_class.leads.plus
  normal := ⟨_, rfl, digit_class.plus_exact.mono fun rest hrest c hc =>
    (Bool.or_eq_false_iff.mp (hrest c hc)).2⟩
  starts pos s := by
    rw [grammar, number, parse_rule_isSome, Expr.plus, parse_seq_star_isSome]
    exact digit_class.isSome_iff

theorem op_worded : Worded .op where
  leads := op_class.leads
  normal := ⟨_, rfl, ((isClass_char '+').rule.choice (isClass_char '-').rule).exact _⟩
  starts _ _ := op_class.isSome_iff

theorem worded {r : Rule} (h : r ∈ kinds) : Worded r := by
  simp only [kinds, List.mem_cons, List.not_mem_nil, or_false] at h
  rcases h with rfl | rfl | rfl
  · exact identifier_worded
  · exact number_worded
  · exact op_worded

theorem startsItem_iff {c : Char} : startsItem c = true ↔ ∃ r ∈ kinds, leading r c = true := by
  simp only [startsItem, kinds, leading, List.mem_cons, List.not_mem_nil, or_false,
    exists_eq_or_imp, exists_eq_left, Bool.or_eq_true, or_assoc]

theorem kind_unique {r r' : Rule} (hr : r ∈ kinds) (hr' : r' ∈ kinds) {c : Char}
    (h : leading r c = true) (h' : leading r' c = true) : r' = r := by
  have hsign : ∀ c, (isAlpha c = true ∨ isDigit c = true) →
      (decide (c = '+') || decide (c = '-')) = false := by
    intro c hc
    rw [Bool.or_eq_false_iff, decide_eq_false_iff_not, decide_eq_false_iff_not]
    constructor
    · rintro rfl
      exact absurd hc (by decide)
    · rintro rfl
      exact absurd hc (by decide)
  simp only [kinds, List.mem_cons, List.not_mem_nil, or_false] at hr hr'
  rcases hr with rfl | rfl | rfl <;> rcases hr' with rfl | rfl | rfl <;>
    simp only [leading] at h h'
  all_goals try rfl
  · rw [isDigit_of_isAlpha h] at h'
    cases h'
  · rw [hsign c (Or.inl h)] at h'
    cases h'
  · rw [isDigit_of_isAlpha h'] at h
    cases h
  · rw [hsign c (Or.inr h)] at h'
    cases h'
  · rw [hsign c (Or.inl h')] at h
    cases h
  · rw [hsign c (Or.inr h')] at h
    cases h

theorem term_eq : term = .rule .silent .term (Expr.anyOf (kinds.map grammar)) := rfl

theorem term_isSome {pos : ℕ} {s : List Char} :
    (term.parse ⟨pos, s⟩).isSome = true ↔ ∃ c ∈ s.head?, startsItem c = true := by
  rw [term_eq, parse_rule_isSome, parse_anyOf_isSome]
  constructor
  · rintro ⟨e, he, hsome⟩
    obtain ⟨r, hr, rfl⟩ := List.mem_map.mp he
    obtain ⟨c, hc, hleads⟩ := ((worded hr).starts pos s).mp hsome
    exact ⟨c, hc, startsItem_iff.mpr ⟨r, hr, hleads⟩⟩
  · rintro ⟨c, hc, hstarts⟩
    obtain ⟨r, hr, hleads⟩ := startsItem_iff.mp hstarts
    exact ⟨grammar r, List.mem_map_of_mem hr, ((worded hr).starts pos s).mpr ⟨c, hc, hleads⟩⟩

theorem term_reads {r : Rule} (hr : r ∈ kinds) {w rest : List Char}
    (hw : w ∈ (grammar r).language) (hrest : Avoids (fun c => isAlpha c || isDigit c) rest)
    (pos : ℕ) : ∃ inner, term.parse ⟨pos, w ++ rest⟩ =
      some ([.mk r pos w inner], ⟨pos + w.length, rest⟩) := by
  obtain ⟨before, after, hsplit⟩ := List.append_of_mem hr
  have hnodup : (before ++ r :: after).Nodup := hsplit ▸ (by decide : kinds.Nodup)
  obtain ⟨c, v, hcons, hc⟩ := (worded hr).leads w hw
  obtain ⟨e, he, hexact⟩ := (worded hr).normal
  obtain ⟨inner, hreads⟩ : ∃ inner, (grammar r).parse ⟨pos, w ++ rest⟩ =
      some ([.mk r pos w inner], ⟨pos + w.length, rest⟩) := by
    rw [he] at hw ⊢
    exact (hexact w hw rest hrest).normal pos
  refine ⟨inner, ?_⟩
  rw [term_eq, hsplit, List.map_append, List.map_cons]
  refine parse_rule_iff.mpr ⟨_, parse_anyOf_of (fun f hf => ?_) hreads _, rfl⟩
  obtain ⟨r', hbefore, rfl⟩ := List.mem_map.mp hf
  have hr' : r' ∈ kinds := hsplit ▸ List.mem_append_left _ hbefore
  by_contra hsome
  obtain ⟨x, hx, hleads⟩ :=
    ((worded hr').starts pos (w ++ rest)).mp (Option.isSome_iff_ne_none.mpr hsome)
  rw [hcons] at hx
  cases hx
  obtain rfl := kind_unique hr hr' hc hleads
  exact List.disjoint_of_nodup_append hnodup hbefore List.mem_cons_self

end Items

section Lists

theorem Listed.begins {pos : ℕ} {s : List Char} {items : List (Rule × ℕ × List Char)}
    (h : Listed pos s items) : ∃ c ∈ s.head?, startsItem c = true := by
  cases h with
  | last kind word =>
    obtain ⟨c, v, rfl, hc⟩ := (worded kind).leads _ word
    exact ⟨c, rfl, startsItem_iff.mpr ⟨_, kind, hc⟩⟩
  | more kind word _ _ =>
    obtain ⟨c, v, rfl, hc⟩ := (worded kind).leads _ word
    exact ⟨c, rfl, startsItem_iff.mpr ⟨_, kind, hc⟩⟩

theorem Listed.single {pos n : ℕ} {s w : List Char} {r : Rule}
    (h : Listed pos s [(r, n, w)]) : s = w := by
  cases h with
  | last _ _ => rfl
  | more _ _ _ rest => cases rest

theorem spaces_read {gap : ℕ} (space : 0 < gap) {rest : List Char}
    (hrest : ∃ c ∈ rest.head?, startsItem c = true) :
    Reads (Expr.plus (.char ' ') : Expr Rule Char) (List.replicate gap ' ') rest := by
  refine (isClass_char ' ').plus_exact _ ((isClass_char ' ').mem_plus.mpr ⟨?_, ?_⟩) rest ?_
  · intro hnil
    rw [List.replicate_eq_nil_iff] at hnil
    omega
  · intro c hc
    exact decide_eq_true (List.eq_of_mem_replicate hc)
  · obtain ⟨x, hx, hstarts⟩ := hrest
    intro c hc
    obtain rfl : x = c := Option.mem_unique hx hc
    refine decide_eq_false ?_
    rintro rfl
    exact absurd hstarts (by decide)

theorem Listed.parsed {pos : ℕ} {s : List Char} {items : List (Rule × ℕ × List Char)}
    (h : Listed pos s items) :
    ∃ tokens, toplevel.parse ⟨pos, s⟩ = some (tokens, ⟨pos + s.length, []⟩) ∧
      tokens.map span = items := by
  induction h with
  | @last pos r w kind word =>
    obtain ⟨inner, hterm⟩ := term_reads kind word (avoids_nil _) pos
    rw [List.append_nil] at hterm
    have hstop : (Expr.star (.seq (Expr.plus (.char ' ')) term)).parse ⟨pos + w.length, []⟩ =
        some ([], ⟨pos + w.length, []⟩) := parse_star_none rfl
    exact ⟨_, parse_rule_iff.mpr ⟨_, parse_seq_iff.mpr ⟨_, _, _, hterm, hstop, rfl⟩, rfl⟩, rfl⟩
  | @more pos gap r w s items kind word space rest ih =>
    obtain ⟨tokens, hparse, hspans⟩ := ih
    obtain ⟨us, hseq, rfl⟩ := parse_rule_iff.mp hparse
    obtain ⟨xs, mid, ys, hfirst, hothers, rfl⟩ := parse_seq_iff.mp hseq
    have hgap : Avoids (fun c => isAlpha c || isDigit c) (List.replicate gap ' ' ++ s) := by
      obtain ⟨n, rfl⟩ := Nat.exists_eq_succ_of_ne_zero (Nat.pos_iff_ne_zero.mp space)
      exact avoids_cons (by decide) _
    obtain ⟨inner, hterm⟩ := term_reads kind word hgap pos
    obtain ⟨vs, hspaces⟩ := spaces_read space rest.begins (pos + w.length)
    rw [List.length_replicate] at hspaces
    obtain rfl : vs = [] := parse_bare rfl hspaces
    have hitem : (Expr.seq (Expr.plus (.char ' ')) term).parse
        ⟨pos + w.length, List.replicate gap ' ' ++ s⟩ = some (xs, mid) :=
      parse_seq_iff.mpr ⟨[], _, xs, hspaces, hfirst, rfl⟩
    have htail := parse_star_some rfl hitem hothers
    have hend : pos + (w ++ (List.replicate gap ' ' ++ s)).length =
        pos + w.length + gap + s.length := by
      simp only [List.length_append, List.length_replicate]
      omega
    rw [hend]
    refine ⟨_, parse_rule_iff.mpr ⟨_, parse_seq_iff.mpr ⟨_, _, _, hterm, htail, rfl⟩, rfl⟩, ?_⟩
    exact congrArg ((r, pos, w) :: ·) hspans

theorem toplevel_isSome {pos : ℕ} {s : List Char} :
    (toplevel.parse ⟨pos, s⟩).isSome = true ↔ ∃ c ∈ s.head?, startsItem c = true := by
  rw [toplevel, parse_rule_isSome, parse_seq_star_isSome]
  exact term_isSome

theorem Listed.tokens {s : String} {items : List (Rule × ℕ × List Char)}
    (h : Listed 0 s.toList items) : ∃ tokens, parse .toplevel s = some tokens ∧
      tokens.map span = items := by
  obtain ⟨tokens, hparse, hspans⟩ := h.parsed
  exact ⟨tokens, Option.map_eq_some_iff.mpr ⟨_, hparse, rfl⟩, hspans⟩

/-- The rule is not closed by the end of the input, so a text is accounted for exactly if it is
a list of items or does not begin with one: on any other text the rule reads a part and drops
the rest. -/
theorem accountsFor_iff (s : String) :
    AccountsFor s ↔
      (∃ items, Listed 0 s.toList items) ∨ ∀ c ∈ s.toList.head?, startsItem c = false := by
  have hsome : (parse .toplevel s).isSome = true ↔ ∃ c ∈ s.toList.head?, startsItem c = true := by
    rw [parse, Option.isSome_map]
    exact toplevel_isSome
  constructor
  · rintro ⟨haccepts, _⟩
    by_cases hstart : ∃ c ∈ s.toList.head?, startsItem c = true
    · exact Or.inl (haccepts.mp (hsome.mpr hstart))
    · refine Or.inr fun c hc => ?_
      rw [← Bool.not_eq_true]
      exact fun h => hstart ⟨c, hc, h⟩
  · rintro (⟨items, hlisted⟩ | hother)
    · obtain ⟨tokens, hparse, hspans⟩ := hlisted.tokens
      refine ⟨⟨fun _ => ⟨items, hlisted⟩, fun _ => by rw [hparse]; rfl⟩, fun tokens' hparse' => ?_⟩
      obtain rfl : tokens = tokens' := Option.some.inj (hparse.symm.trans hparse')
      rwa [hspans]
    · have hnone : ¬ ∃ c ∈ s.toList.head?, startsItem c = true := by
        rintro ⟨c, hc, h⟩
        rw [hother c hc] at h
        cases h
      refine ⟨⟨fun h => absurd (hsome.mp h) hnone, ?_⟩, fun tokens h => ?_⟩
      · rintro ⟨items, hlisted⟩
        exact absurd hlisted.begins hnone
      · exact absurd (hsome.mp (by rw [h]; rfl)) hnone

example : (parse .toplevel "a + b a2 - b2 + 42").map (fun tokens => tokens.map span) =
    some [(.identifier, 0, ['a']), (.op, 2, ['+']), (.identifier, 4, ['b']),
      (.identifier, 6, ['a', '2']), (.op, 9, ['-']), (.identifier, 11, ['b', '2']),
      (.op, 14, ['+']), (.number, 16, ['4', '2'])] := by
  decide +kernel

/-- A digit glued to a letter: the letter is dropped. -/
theorem glued_letter_dropped :
    (parse .toplevel "1a").map (fun tokens => tokens.map span) = some [(.number, 0, ['1'])] ∧
      ¬ AccountsFor "1a" := by
  have htokens : (parse .toplevel "1a").map (fun tokens => tokens.map span) =
      some [(.number, 0, ['1'])] := by
    decide +kernel
  refine ⟨htokens, fun h => ?_⟩
  obtain ⟨tokens, hparse, hspans⟩ := Option.map_eq_some_iff.mp htokens
  have hlisted := h.2 tokens hparse
  rw [hspans] at hlisted
  exact absurd hlisted.single (by decide)

end Lists

end RustExperiments.Pest.Tokens
