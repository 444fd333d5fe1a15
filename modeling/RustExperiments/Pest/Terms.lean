/- module: RustExperiments/Pest/Terms
   digest: The rule `term` classifies identifiers exactly, and `terms` does so piece by piece. -/

import Mathlib.Data.List.Permutation
import RustExperiments.Pest.Identifiers

set_option autoImplicit false
set_option relaxedAutoImplicit false

namespace RustExperiments.Pest.Identifiers

open RustExperiments.Lib.Peg

section Order

/-- `single_term` with its alternatives in another order. -/
def singleTermOf (order : List Rule) : Expr Rule Char :=
  .rule .silent .singleTerm (Expr.anyOf (order.map grammar))

def termOf (order : List Rule) : Expr Rule Char :=
  .rule .silent .term (.seq .soi (.seq (singleTermOf order) eoi))

theorem term_eq : term = termOf kinds := rfl

/-- Camel case is tried before the snake case of the same first letter. -/
def CamelFirst (order : List Rule) : Prop :=
  order.idxOf .camelCase < order.idxOf .upperSnake ∧
    order.idxOf .camelBack < order.idxOf .lowerSnake

instance (order : List Rule) : Decidable (CamelFirst order) :=
  inferInstanceAs (Decidable (_ ∧ _))

/-- Two kinds begin with letters of different cases, or the first one has letters of both cases
where the second one has not; unless the second is the camel case of the first. -/
theorem kinds_apart {r r' : Rule} (hr : r ∈ kinds) (hr' : r' ∈ kinds) (ne : r' ≠ r) :
    (∀ c, leading r c = true → leading r' c = false) ∨
      mixed r' = true ∧ mixed r = false ∧ opposite r' = opposite r ∨
      r' = .upperSnake ∧ r = .camelCase ∨ r' = .lowerSnake ∧ r = .camelBack := by
  simp only [kinds, List.mem_cons, List.not_mem_nil, or_false] at hr hr'
  rcases hr with rfl | rfl | rfl | rfl <;> rcases hr' with rfl | rfl | rfl | rfl
  · exact absurd rfl ne
  · exact Or.inl fun _ h => isLo_of_isUp h
  · exact Or.inl fun _ h => isLo_of_isUp h
  · exact Or.inr (Or.inr (Or.inl ⟨rfl, rfl⟩))
  · exact Or.inl fun _ h => isUp_of_isLo h
  · exact absurd rfl ne
  · exact Or.inr (Or.inr (Or.inr ⟨rfl, rfl⟩))
  · exact Or.inl fun _ h => isUp_of_isLo h
  · exact Or.inl fun _ h => isUp_of_isLo h
  · exact Or.inr (Or.inl ⟨rfl, rfl, rfl⟩)
  · exact absurd rfl ne
  · exact Or.inl fun _ h => isUp_of_isLo h
  · exact Or.inr (Or.inl ⟨rfl, rfl, rfl⟩)
  · exact Or.inl fun _ h => isLo_of_isUp h
  · exact Or.inl fun _ h => isLo_of_isUp h
  · exact absurd rfl ne

theorem kinds_disjoint {r r' : Rule} (hr : r ∈ kinds) (hr' : r' ∈ kinds) {w : List Char}
    (hw : w ∈ (grammar r).language) (hw' : w ∈ (grammar r').language) : r' = r := by
  by_contra ne
  obtain ⟨c, v, hcons, hc⟩ := (worded hr).leads w hw
  obtain ⟨c', v', hcons', hc'⟩ := (worded hr').leads w hw'
  have hsame : c = c' := (List.cons.inj (hcons.symm.trans hcons')).1
  have hmixes : ∀ {a b : Rule}, a ∈ kinds → b ∈ kinds → w ∈ (grammar a).language →
      w ∈ (grammar b).language → mixed a = true → mixed b = false → opposite a ≠ opposite b := by
    intro a b ha hb hwa hwb hmixed hkept hopposite
    obtain ⟨x, hx, hopp⟩ := (worded ha).mixes hmixed w hwa
    rw [hopposite, (worded hb).keeps hkept w hwb x hx] at hopp
    cases hopp
  rcases kinds_apart hr hr' ne with hlead | ⟨hmixed, hkept, hopposite⟩ | ⟨rfl, rfl⟩ | ⟨rfl, rfl⟩
  · rw [hsame] at hc
    rw [hlead c' hc] at hc'
    cases hc'
  · exact hmixes hr' hr hw' hw hmixed hkept hopposite
  · exact hmixes hr hr' hw hw' rfl rfl rfl
  · exact hmixes hr hr' hw hw' rfl rfl rfl

theorem kind_fails {r r' : Rule} (hr : r ∈ kinds) (hr' : r' ∈ kinds) (ne : r' ≠ r)
    (upper : ¬ (r' = .upperSnake ∧ r = .camelCase)) (lower : ¬ (r' = .lowerSnake ∧ r = .camelBack))
    {w rest : List Char} (hw : w ∈ (grammar r).language) (hrest : Avoids isWord rest) :
    Fails (grammar r') (w ++ rest) := by
  rcases kinds_apart hr hr' ne with hlead | ⟨hmixed, hkept, hopposite⟩ | habsurd | habsurd
  · obtain ⟨c, v, rfl, hc⟩ := (worded hr).leads w hw
    exact (worded hr').fails _ (avoids_cons (hlead c hc) (v ++ rest))
  · intro pos
    rw [Option.eq_none_iff_forall_not_mem]
    rintro ⟨ts, t⟩ hparse
    obtain ⟨u, hu, hadv⟩ := parse_sound hparse
    have hbelow := prefix_of_avoids hadv.rest.symm ((worded hr').symbols u hu) hrest
    obtain ⟨c, hc, hopp⟩ := (worded hr').mixes hmixed u hu
    rw [hopposite, (worded hr).keeps hkept w hw c (hbelow.mem hc)] at hopp
    cases hopp
  · exact absurd habsurd upper
  · exact absurd habsurd lower

variable {order : List Rule}

theorem idxOf_before {before : List Rule} {r r' : Rule} (hr' : r' ∈ before)
    (hr : r ∉ before) (after : List Rule) :
    (before ++ r :: after).idxOf r' < (before ++ r :: after).idxOf r := by
  rw [List.idxOf_append_of_mem hr', List.idxOf_append_of_notMem hr]
  have hlt := List.idxOf_lt_length_of_mem hr'
  omega

/-- With camel case first every word is taken for what it is. -/
theorem singleTermOf_reads (perm : order.Perm kinds) (camel : CamelFirst order) {r : Rule}
    (hr : r ∈ kinds) {w rest : List Char} (hw : w ∈ (grammar r).language)
    (hrest : Avoids isWord rest) (pos : ℕ) :
    (singleTermOf order).parse ⟨pos, w ++ rest⟩ =
      some ([.mk r pos w []], ⟨pos + w.length, rest⟩) := by
  obtain ⟨before, after, rfl⟩ := List.append_of_mem (perm.mem_iff.mpr hr)
  have hnodup : (before ++ r :: after).Nodup := perm.nodup_iff.mpr (by decide)
  have hfresh : r ∉ before := fun hmem =>
    (List.disjoint_of_nodup_append hnodup) hmem List.mem_cons_self
  obtain ⟨e, he, hexact⟩ := (worded hr).atomic
  have hreads : (grammar r).parse ⟨pos, w ++ rest⟩ =
      some ([.mk r pos w []], ⟨pos + w.length, rest⟩) := by
    rw [he] at hw ⊢
    exact (hexact w hw rest hrest).atomic pos
  refine parse_rule_iff.mpr ⟨_, ?_, rfl⟩
  rw [List.map_append, List.map_cons]
  refine parse_anyOf_of (fun f hf => ?_) hreads _
  obtain ⟨r', hbefore, rfl⟩ := List.mem_map.mp hf
  have hlt := idxOf_before hbefore hfresh after
  have hr' : r' ∈ kinds := perm.mem_iff.mp (List.mem_append_left _ hbefore)
  refine kind_fails hr hr' (fun heq => hfresh (heq ▸ hbefore)) ?_ ?_ hw hrest pos
  · rintro ⟨rfl, rfl⟩
    exact absurd camel.1 (by omega)
  · rintro ⟨rfl, rfl⟩
    exact absurd camel.2 (by omega)

theorem singleTermOf_sound (perm : order.Perm kinds) {s t : Position Char}
    {ts : List (Pair Rule Char)} (h : (singleTermOf order).parse s = some (ts, t)) :
    ∃ r ∈ kinds, ∃ w ∈ (grammar r).language, Advances s t w ∧ ts = [.mk r s.pos w []] := by
  obtain ⟨us, hany, rfl⟩ := parse_rule_iff.mp h
  obtain ⟨f, hf, hread⟩ := parse_anyOf_sound hany
  obtain ⟨r, hr, rfl⟩ := List.mem_map.mp hf
  have hkind := perm.mem_iff.mp hr
  obtain ⟨w, hw, hadv⟩ := parse_sound hread
  obtain ⟨e, he, _⟩ := (worded hkind).atomic
  rw [he] at hread
  obtain ⟨vs, _, rfl⟩ := parse_rule_iff.mp hread
  exact ⟨r, hkind, w, hw, hadv, emit_atomic hadv vs⟩

theorem parse_eoi_iff {s t : Position Char} {ts : List (Pair Rule Char)} :
    eoi.parse s = some (ts, t) ↔ s.rest = [] ∧ t = s ∧ ts = [.mk .EOI s.pos [] []] := by
  rw [eoi, parse_rule_iff]
  constructor
  · rintro ⟨us, hend, rfl⟩
    rw [parse_endOfInput] at hend
    split_ifs at hend with hrest
    cases hend
    exact ⟨List.isEmpty_iff.mp hrest, rfl, emit_normal (.refl s) []⟩
  · rintro ⟨hrest, rfl, rfl⟩
    refine ⟨[], ?_, (emit_normal (.refl t) []).symm⟩
    rw [parse_endOfInput, if_pos (List.isEmpty_iff.mpr hrest)]

theorem parse_closed_iff {r : Rule} {e : Expr Rule Char} {s : List Char}
    {tokens : List (Pair Rule Char)} :
    (∃ t, (Expr.rule .silent r (.seq .soi (.seq e eoi))).parse ⟨0, s⟩ = some (tokens, t)) ↔
      ∃ ts t, e.parse ⟨0, s⟩ = some (ts, t) ∧ t.rest = [] ∧
        tokens = ts ++ [.mk .EOI t.pos [] []] := by
  constructor
  · rintro ⟨t, h⟩
    obtain ⟨us, hseq, rfl⟩ := parse_rule_iff.mp h
    obtain ⟨vs, start, ws, hsoi, hclosed, rfl⟩ := parse_seq_iff.mp hseq
    cases hsoi
    obtain ⟨ts, mid, xs, he, heoi, rfl⟩ := parse_seq_iff.mp hclosed
    obtain ⟨hrest, rfl, rfl⟩ := parse_eoi_iff.mp heoi
    exact ⟨ts, t, he, hrest, rfl⟩
  · rintro ⟨ts, t, he, hrest, rfl⟩
    refine ⟨t, parse_rule_iff.mpr ⟨_, parse_seq_iff.mpr ⟨[], ⟨0, s⟩, _, rfl, ?_, rfl⟩, rfl⟩⟩
    exact parse_seq_iff.mpr ⟨ts, t, _, he, parse_eoi_iff.mpr ⟨hrest, rfl, rfl⟩, rfl⟩

theorem parse_termOf_iff (perm : order.Perm kinds) (camel : CamelFirst order) {s : List Char}
    {tokens : List (Pair Rule Char)} :
    (∃ t, (termOf order).parse ⟨0, s⟩ = some (tokens, t)) ↔
      ∃ r ∈ kinds, s ∈ (grammar r).language ∧
        tokens = [.mk r 0 s [], .mk .EOI s.length [] []] := by
  rw [termOf, parse_closed_iff]
  constructor
  · rintro ⟨ts, t, h, hend, rfl⟩
    obtain ⟨r, hr, w, hw, hadv, rfl⟩ := singleTermOf_sound perm h
    have hword : s = w ++ t.rest := hadv.rest
    rw [hend, List.append_nil] at hword
    subst hword
    refine ⟨r, hr, hw, ?_⟩
    rw [hadv.pos, Nat.zero_add]
    rfl
  · rintro ⟨r, hr, hw, rfl⟩
    have hreads := singleTermOf_reads perm camel hr hw (avoids_nil isWord) 0
    rw [List.append_nil] at hreads
    refine ⟨_, _, hreads, rfl, ?_⟩
    rw [Nat.zero_add]
    rfl

end Order

section Classification

/-- What the rule `term` takes the text for, with its alternatives in this order. -/
def ruleWith (order : List Rule) (s : String) : Option Rule :=
  ((termOf order).parse ⟨0, s.toList⟩).bind fun a => a.1.head?.map Pair.rule

/-- `tests::rule` -/
def rule (s : String) : Option Rule := (parse .term s).bind fun tokens => tokens.head?.map Pair.rule

theorem rule_eq (s : String) : rule s = ruleWith kinds s := by
  rw [rule, ruleWith, parse, Option.bind_map, ← term_eq]
  rfl

theorem ruleWith_eq_some_iff {order : List Rule} (perm : order.Perm kinds)
    (camel : CamelFirst order) (s : String) (r : Rule) :
    ruleWith order s = some r ↔ r ∈ kinds ∧ s.toList ∈ (grammar r).language := by
  rw [ruleWith, Option.bind_eq_some_iff]
  constructor
  · rintro ⟨⟨tokens, t⟩, h, hrule⟩
    obtain ⟨r', hr', hw, rfl⟩ := (parse_termOf_iff perm camel).mp ⟨t, h⟩
    cases hrule
    exact ⟨hr', hw⟩
  · rintro ⟨hr, hw⟩
    obtain ⟨t, h⟩ := (parse_termOf_iff perm camel).mpr ⟨r, hr, hw, rfl⟩
    exact ⟨_, h, rfl⟩

theorem kinds_camelFirst : CamelFirst kinds := by decide

theorem snake_first_refuses {order : List Rule} (perm : order.Perm kinds)
    (snake : ¬ CamelFirst order) :
    ruleWith order "Foo" ≠ rule "Foo" ∨ ruleWith order "fooBar" ≠ rule "fooBar" := by
  have hall : ∀ order ∈ List.permutations' kinds, ¬ CamelFirst order →
      ruleWith order "Foo" ≠ rule "Foo" ∨ ruleWith order "fooBar" ≠ rule "fooBar" := by
    decide +kernel
  exact hall order (List.mem_permutations'.mpr perm) snake

/-- `term` succeeds with the token of a kind exactly on the words of its language, read
declaratively; the tokens are then that one, over the whole text, and the end of the input; no text
is a word of two kinds; and the answers stay the same under another order of the alternatives if
and only if each camel case still comes before the snake case of the same first letter. -/
theorem term_classifies :
    (∀ (s : String) (r : Rule), rule s = some r ↔ r ∈ kinds ∧ s.toList ∈ (grammar r).language) ∧
    (∀ (s : String) (tokens : List (Pair Rule Char)), parse .term s = some tokens →
      ∃ r ∈ kinds, tokens = [.mk r 0 s.toList [], .mk .EOI s.toList.length [] []]) ∧
    (∀ r ∈ kinds, ∀ r' ∈ kinds, r' ≠ r →
      ∀ w, ¬ (w ∈ (grammar r).language ∧ w ∈ (grammar r').language)) ∧
    ∀ order : List Rule, order.Perm kinds →
      ((∀ s, ruleWith order s = rule s) ↔ CamelFirst order) := by
  refine ⟨fun s r => ?_, fun s tokens h => ?_, fun r hr r' hr' ne w hw => ?_, fun order perm => ?_⟩
  · rw [rule_eq]
    exact ruleWith_eq_some_iff (List.Perm.refl _) kinds_camelFirst s r
  · obtain ⟨⟨_, t⟩, hparse, rfl⟩ := Option.map_eq_some_iff.mp h
    obtain ⟨r, hr, _, htokens⟩ :=
      (parse_termOf_iff (List.Perm.refl _) kinds_camelFirst).mp ⟨t, hparse⟩
    exact ⟨r, hr, htokens⟩
  · exact ne (kinds_disjoint hr hr' hw.1 hw.2)
  · constructor
    · intro h
      by_contra hsnake
      rcases snake_first_refuses perm hsnake with hne | hne
      · exact hne (h "Foo")
      · exact hne (h "fooBar")
    · intro camel s
      refine Option.ext fun r => ?_
      rw [rule_eq, ruleWith_eq_some_iff perm camel,
        ruleWith_eq_some_iff (List.Perm.refl _) kinds_camelFirst]

/-- Were the upper snake case tried first, `Foo` would be refused: its first letter is one. -/
theorem upper_snake_first_refuses :
    rule "Foo" = some .camelCase ∧
      ruleWith [.upperSnake, .camelCase, .camelBack, .lowerSnake] "Foo" = none ∧
      ¬ ∀ order : List Rule, order.Perm kinds → ∀ s, ruleWith order s = rule s := by
  have hrule : rule "Foo" = some .camelCase := by decide +kernel
  have hrefused : ruleWith [.upperSnake, .camelCase, .camelBack, .lowerSnake] "Foo" = none := by
    decide +kernel
  refine ⟨hrule, hrefused, fun h => ?_⟩
  have hsame := h [.upperSnake, .camelCase, .camelBack, .lowerSnake] (by decide) "Foo"
  rw [hrule, hrefused] at hsame
  cases hsame

end Classification

section Lists

def pieces (s : String) : List String := (s.split ',').toList.map (·.copy)

def words (tokens : List (Pair Rule Char)) : List (Rule × String) :=
  (tokens.filter fun t => t.rule ≠ .EOI).map fun t => (t.rule, String.ofList t.text)

def tokensFrom : ℕ → List (Rule × List Char) → List (Pair Rule Char)
  | _, [] => []
  | pos, (r, w) :: items => .mk r pos w [] :: tokensFrom (pos + w.length + 1) items

/-- Words of the grammar with the rules that they belong to. -/
def Classified (items : List (Rule × List Char)) : Prop :=
  ∀ item ∈ items, item.1 ∈ kinds ∧ item.2 ∈ (grammar item.1).language

theorem pieces_eq (s : String) : pieces s = (s.toList.splitOn ',').map String.ofList :=
  String.toList_split_char

theorem Classified.cons {r : Rule} {w : List Char} {items : List (Rule × List Char)}
    (hr : r ∈ kinds) (hw : w ∈ (grammar r).language) (h : Classified items) :
    Classified ((r, w) :: items) := by
  intro item hitem
  rcases List.mem_cons.mp hitem with rfl | hitem
  · exact ⟨hr, hw⟩
  · exact h item hitem

theorem words_cons {t : Pair Rule Char} (h : t.rule ≠ .EOI) (tokens : List (Pair Rule Char)) :
    words (t :: tokens) = (t.rule, String.ofList t.text) :: words tokens := by
  rw [words, List.filter_cons, if_pos (decide_eq_true h), List.map_cons, words]

theorem words_tokensFrom {items : List (Rule × List Char)} (h : Classified items) (pos n : ℕ) :
    words (tokensFrom pos items ++ [.mk .EOI n [] []]) =
      items.map fun item => (item.1, String.ofList item.2) := by
  induction items generalizing pos with
  | nil => rfl
  | cons item items ih =>
    obtain ⟨r, w⟩ := item
    have hne : (Pair.mk r pos w []).rule ≠ .EOI := by
      rintro rfl
      exact (by decide : Rule.EOI ∉ kinds) (h _ List.mem_cons_self).1
    rw [tokensFrom, List.cons_append, words_cons hne, List.map_cons,
      ih fun item hitem => h item (List.mem_cons_of_mem _ hitem)]
    rfl

theorem singleTerm_sound {s t : Position Char} {ts : List (Pair Rule Char)}
    (h : singleTerm.parse s = some (ts, t)) :
    ∃ r ∈ kinds, ∃ w ∈ (grammar r).language, Advances s t w ∧ ts = [.mk r s.pos w []] :=
  singleTermOf_sound (List.Perm.refl _) h

theorem mem_singleTerm {w : List Char} :
    w ∈ singleTerm.language ↔ ∃ r ∈ kinds, w ∈ (grammar r).language := by
  simp only [kinds, List.mem_cons, List.not_mem_nil, or_false, exists_eq_or_imp, exists_eq_left]
  rfl

theorem singleTerm_exact : Exact singleTerm (Avoids isWord) := by
  intro w hw rest hrest pos
  obtain ⟨r, hr, hword⟩ := mem_singleTerm.mp hw
  exact ⟨_, singleTermOf_reads (List.Perm.refl _) kinds_camelFirst hr hword hrest pos⟩

theorem tail_sound {s t : Position Char} {ts : List (Pair Rule Char)}
    (h : (Expr.star (.seq (.char ',') singleTerm)).parse s = some (ts, t)) :
    ∃ items, Classified items ∧ s.rest = (items.flatMap fun item => ',' :: item.2) ++ t.rest ∧
      ts = tokensFrom (s.pos + 1) items := by
  refine parse_star_induction (P := fun s ts t => ∃ items, Classified items ∧
    s.rest = (items.flatMap fun item => ',' :: item.2) ++ t.rest ∧
      ts = tokensFrom (s.pos + 1) items) (fun s => ⟨[], nofun, rfl, rfl⟩) ?_ h
  rintro s us mid vs t hitem ⟨items, hitems, hrest, rfl⟩
  obtain ⟨xs, comma, ys, hcomma, hterm, rfl⟩ := parse_seq_iff.mp hitem
  obtain ⟨c, hc, rfl, hadv⟩ := parse_sat_iff.mp hcomma
  obtain rfl := of_decide_eq_true hc
  obtain ⟨r, hr, w, hw, hadv', rfl⟩ := singleTerm_sound hterm
  refine ⟨(r, w) :: items, hitems.cons hr hw, ?_, ?_⟩
  · rw [hadv.rest, hadv'.rest, hrest]
    simp
  · rw [hadv'.pos, hadv.pos]
    rfl

theorem intercalate_flatMap (w : List Char) (items : List (Rule × List Char)) :
    w ++ (items.flatMap fun item => ',' :: item.2) =
      [','].intercalate (w :: items.map Prod.snd) := by
  induction items generalizing w with
  | nil => simp
  | cons item items ih =>
    rw [List.flatMap_cons, List.map_cons, List.intercalate_cons_cons, ← ih]
    simp

theorem terms_sound {s : List Char} {tokens : List (Pair Rule Char)} {t : Position Char}
    (h : terms.parse ⟨0, s⟩ = some (tokens, t)) :
    ∃ items, items ≠ [] ∧ Classified items ∧ s = [','].intercalate (items.map Prod.snd) ∧
      tokens = tokensFrom 0 items ++ [.mk .EOI s.length [] []] := by
  obtain ⟨ts, stop, hlist, hend, rfl⟩ := parse_closed_iff.mp ⟨t, h⟩
  obtain ⟨us, mid, vs, hfirst, htail, rfl⟩ := parse_seq_iff.mp hlist
  obtain ⟨w, _, hadv⟩ := parse_sound hlist
  obtain ⟨r, hr, v, hv, hadv', rfl⟩ := singleTerm_sound hfirst
  obtain ⟨items, hitems, hrest, rfl⟩ := tail_sound htail
  have hlength : stop.pos = s.length := by
    have hs : s = w ++ stop.rest := hadv.rest
    rw [hadv.pos, hs, hend, List.append_nil, Nat.zero_add]
  refine ⟨(r, v) :: items, List.cons_ne_nil _ _, hitems.cons hr hv, ?_, ?_⟩
  · have hs : s = v ++ mid.rest := hadv'.rest
    rw [hs, hrest, hend, List.append_nil, intercalate_flatMap]
    rfl
  · rw [hlength, hadv'.pos]
    rfl

theorem pieces_of_items {s : String} {items : List (Rule × List Char)} (ne : items ≠ [])
    (h : Classified items) (hs : s.toList = [','].intercalate (items.map Prod.snd)) :
    pieces s = items.map fun item => String.ofList item.2 := by
  have hcomma : ∀ w ∈ items.map Prod.snd, ',' ∉ w := by
    intro w hw hmem
    obtain ⟨item, hitem, rfl⟩ := List.mem_map.mp hw
    obtain ⟨hr, hword⟩ := h item hitem
    have habsurd := (worded hr).symbols item.2 hword ',' hmem
    exact absurd habsurd (by decide)
  rw [pieces_eq, hs, List.splitOn_intercalate ',' hcomma (by simpa using ne), List.map_map]
  rfl

theorem parse_term_of_mem {r : Rule} (hr : r ∈ kinds) {w : List Char}
    (hw : w ∈ (grammar r).language) :
    parse .term (String.ofList w) = some [.mk r 0 w [], .mk .EOI w.length [] []] := by
  obtain ⟨t, h⟩ := (parse_termOf_iff (List.Perm.refl _) kinds_camelFirst).mpr ⟨r, hr, hw, rfl⟩
  rw [parse, String.toList_ofList]
  exact Option.map_eq_some_iff.mpr ⟨_, h, rfl⟩

theorem parse_terms_isSome {s : String}
    (h : s.toList ∈ (Expr.seq singleTerm (.star (.seq (.char ',') singleTerm))).language) :
    (parse .terms s).isSome = true := by
  have hexact : Exact (.seq singleTerm (.star (.seq (.char ',') singleTerm)))
      fun rest => rest = [] :=
    singleTerm_exact.list (fun rest => avoids_cons (by decide) rest) (avoids_nil isWord)
  obtain ⟨ts, hparse⟩ := hexact s.toList h [] rfl 0
  rw [List.append_nil] at hparse
  obtain ⟨t, hclosed⟩ := parse_closed_iff.mpr ⟨ts, _, hparse, rfl, rfl⟩
  rw [parse, Option.isSome_map]
  exact Option.isSome_iff_exists.mpr ⟨_, hclosed⟩

/-- `terms` succeeds exactly where `term` does on every piece between commas; its tokens are then,
in order, the one token that `term` gives for each piece, with its rule and its text. -/
theorem terms_agrees_with_term (s : String) :
    ((parse .terms s).isSome = true ↔ ∀ piece ∈ pieces s, (parse .term piece).isSome = true) ∧
    ∀ tokens, parse .terms s = some tokens →
      (pieces s).map (fun piece => (parse .term piece).map words) =
        (words tokens).map fun token => some [token] := by
  have hitems : ∀ tokens, parse .terms s = some tokens → ∃ items, Classified items ∧
      pieces s = items.map (fun item => String.ofList item.2) ∧
      words tokens = items.map fun item => (item.1, String.ofList item.2) := by
    intro tokens h
    obtain ⟨⟨_, t⟩, hparse, rfl⟩ := Option.map_eq_some_iff.mp h
    obtain ⟨items, ne, hclassified, hs, rfl⟩ := terms_sound hparse
    exact ⟨items, hclassified, pieces_of_items ne hclassified hs, words_tokensFrom hclassified 0 _⟩
  refine ⟨⟨fun h piece hpiece => ?_, fun h => ?_⟩, fun tokens h => ?_⟩
  · obtain ⟨tokens, hparse⟩ := Option.isSome_iff_exists.mp h
    obtain ⟨items, hclassified, hpieces, _⟩ := hitems tokens hparse
    rw [hpieces] at hpiece
    obtain ⟨item, hitem, rfl⟩ := List.mem_map.mp hpiece
    rw [parse_term_of_mem (hclassified item hitem).1 (hclassified item hitem).2]
    rfl
  · refine parse_terms_isSome ?_
    have hjoin : [','].intercalate (s.toList.splitOn ',') = s.toList := List.intercalate_splitOn ','
    rw [← hjoin]
    refine intercalate_mem (List.splitOn_ne_nil ',' s.toList) fun w hw => ?_
    have hpiece := h (String.ofList w) (by rw [pieces_eq]; exact List.mem_map_of_mem hw)
    obtain ⟨tokens, hparse⟩ := Option.isSome_iff_exists.mp hpiece
    obtain ⟨⟨_, t⟩, hterm, rfl⟩ := Option.map_eq_some_iff.mp hparse
    obtain ⟨r, hr, hword, _⟩ :=
      (parse_termOf_iff (List.Perm.refl _) kinds_camelFirst).mp ⟨t, hterm⟩
    rw [String.toList_ofList] at hword
    exact mem_singleTerm.mpr ⟨r, hr, hword⟩
  · obtain ⟨items, hclassified, hpieces, hwords⟩ := hitems tokens h
    rw [hpieces, hwords, List.map_map, List.map_map]
    refine List.map_congr_left fun item hitem => ?_
    obtain ⟨hr, hw⟩ := hclassified item hitem
    have hone : Classified [item] := by
      intro i hi
      obtain rfl := List.mem_singleton.mp hi
      exact ⟨hr, hw⟩
    rw [Function.comp_apply, parse_term_of_mem hr hw, Option.map_some]
    exact congrArg some (words_tokensFrom hone 0 item.2.length)

end Lists

end RustExperiments.Pest.Identifiers
