/- module: RustExperiments/Pest/Identifiers
   digest: The identifier grammar, and what its four kinds of words have apart. -/

import RustExperiments.Lib.PegExact

set_option autoImplicit false
set_option relaxedAutoImplicit false

namespace RustExperiments.Pest.Identifiers

open RustExperiments.Lib.Peg

inductive Rule where
  | EOI
  | term
  | singleTerm
  | terms
  | camelCase
  | camelBack
  | lowerSnake
  | upperSnake
  | lo
  | up
  | dg
  deriving DecidableEq, Repr

section Grammar

/-- `ASCII_ALPHA_LOWER` -/
def isLo (c : Char) : Bool := inRange 'a' 'z' c

/-- `ASCII_ALPHA_UPPER` -/
def isUp (c : Char) : Bool := inRange 'A' 'Z' c

/-- `ASCII_DIGIT` -/
def isDg (c : Char) : Bool := inRange '0' '9' c

def lo : Expr Rule Char := .rule .normal .lo (.sat isLo)

def up : Expr Rule Char := .rule .normal .up (.sat isUp)

def dg : Expr Rule Char := .rule .normal .dg (.sat isDg)

def eoi : Expr Rule Char := .rule .normal .EOI .endOfInput

def hump : Expr Rule Char := .seq up (.seq (.star dg) (.seq lo.plus (.star (.choice lo dg))))

def camelCase : Expr Rule Char := .rule .atomic .camelCase hump.plus

def camelBack : Expr Rule Char :=
  .rule .atomic .camelBack (.seq lo (.seq (.star (.choice lo dg)) camelCase))

def snake (letter : Expr Rule Char) : Expr Rule Char :=
  .seq letter (.seq (.star (.choice letter dg))
    (.star (.seq (.char '_') (Expr.plus (.choice letter dg)))))

def lowerSnake : Expr Rule Char := .rule .atomic .lowerSnake (snake lo)

def upperSnake : Expr Rule Char := .rule .atomic .upperSnake (snake up)

def singleTerm : Expr Rule Char :=
  .rule .silent .singleTerm (.choice camelCase (.choice camelBack (.choice lowerSnake upperSnake)))

def term : Expr Rule Char := .rule .silent .term (.seq .soi (.seq singleTerm eoi))

def terms : Expr Rule Char :=
  .rule .silent .terms
    (.seq .soi (.seq (.seq singleTerm (.star (.seq (.char ',') singleTerm))) eoi))

def grammar : Rule → Expr Rule Char
  | .EOI => eoi
  | .term => term
  | .singleTerm => singleTerm
  | .terms => terms
  | .camelCase => camelCase
  | .camelBack => camelBack
  | .lowerSnake => lowerSnake
  | .upperSnake => upperSnake
  | .lo => lo
  | .up => up
  | .dg => dg

/-- `Grammar::parse`: the tokens, where the rule reads a part of the input from its beginning on. -/
def parse (r : Rule) (input : String) : Option (List (Pair Rule Char)) :=
  ((grammar r).parse ⟨0, input.toList⟩).map Prod.fst

end Grammar

section Classes

theorem lo_class : IsClass lo isLo := (isClass_sat isLo).rule

theorem up_class : IsClass up isUp := (isClass_sat isUp).rule

theorem dg_class : IsClass dg isDg := (isClass_sat isDg).rule

def isWord (c : Char) : Bool := isLo c || isUp c || isDg c || decide (c = '_')

theorem isWord_false {c : Char} (h : isWord c = false) :
    isLo c = false ∧ isUp c = false ∧ isDg c = false ∧ c ≠ '_' := by
  simp only [isWord, Bool.or_eq_false_iff, decide_eq_false_iff_not, and_assoc] at h
  exact h

theorem isUp_of_isLo {c : Char} (h : isLo c = true) : isUp c = false :=
  inRange_disjoint (Or.inr (by decide)) h

theorem isLo_of_isUp {c : Char} (h : isUp c = true) : isLo c = false :=
  inRange_disjoint (Or.inl (by decide)) h

theorem isDg_of_isLo {c : Char} (h : isLo c = true) : isDg c = false :=
  inRange_disjoint (Or.inr (by decide)) h

theorem isDg_of_isUp {c : Char} (h : isUp c = true) : isDg c = false :=
  inRange_disjoint (Or.inr (by decide)) h

theorem isLo_of_isDg {c : Char} (h : isDg c = true) : isLo c = false :=
  inRange_disjoint (Or.inl (by decide)) h

theorem isUp_of_isDg {c : Char} (h : isDg c = true) : isUp c = false :=
  inRange_disjoint (Or.inl (by decide)) h

end Classes

section Words

/-- The alternatives of `single_term`, in its order. -/
def kinds : List Rule := [.camelCase, .camelBack, .lowerSnake, .upperSnake]

def leading : Rule → Char → Bool
  | .camelBack | .lowerSnake => isLo
  | _ => isUp

def opposite : Rule → Char → Bool
  | .camelBack | .lowerSnake => isUp
  | _ => isLo

def mixed : Rule → Bool
  | .camelCase | .camelBack => true
  | _ => false

/-- What the parser needs to know of the words of one kind. -/
structure Worded (r : Rule) : Prop where
  leads : ∀ w ∈ (grammar r).language, ∃ c v, w = c :: v ∧ leading r c = true
  symbols : ∀ w ∈ (grammar r).language, ∀ c ∈ w, isWord c = true
  mixes : mixed r = true → ∀ w ∈ (grammar r).language, ∃ c ∈ w, opposite r c = true
  keeps : mixed r = false → ∀ w ∈ (grammar r).language, ∀ c ∈ w, opposite r c = false
  atomic : ∃ e, grammar r = .rule .atomic r e ∧ Exact e (Avoids isWord)
  fails : ∀ s, Avoids (leading r) s → Fails (grammar r) s

theorem avoids_of_isWord {p : Char → Bool} (h : ∀ c, isWord c = false → p c = false)
    {rest : List Char} (hrest : Avoids isWord rest) : Avoids p rest :=
  fun c hc => h c (hrest c hc)

theorem isWord_loDg {c : Char} (h : isWord c = false) : (isLo c || isDg c) = false := by
  obtain ⟨hlo, _, hdg, _⟩ := isWord_false h
  rw [hlo, hdg]
  rfl

theorem hump_exact : Exact hump (Avoids fun c => isLo c || isDg c) := by
  have hwider : ∀ c, (isLo c || isDg c) = false → isLo c = false :=
    fun c hc => (Bool.or_eq_false_iff.mp hc).1
  have hletters := lo_class.plus_star_exact (lo_class.choice dg_class) hwider
  refine (up_class.exact fun _ => True).seq (dg_class.star_exact.seq hletters ?_)
    fun _ _ _ _ => trivial
  intro v hv rest _
  obtain ⟨u, hu, x, _, rfl⟩ := mem_language_seq.mp hv
  obtain ⟨hne, hall⟩ := lo_class.mem_plus.mp hu
  cases u with
  | nil => exact absurd rfl hne
  | cons c u => exact avoids_cons (isDg_of_isLo (hall c List.mem_cons_self)) _

theorem hump_leads : Leads isUp hump := up_class.leads.seq _

theorem hump_mixes {w : List Char} (h : w ∈ hump.language) : ∃ c ∈ w, isLo c = true := by
  obtain ⟨u, _, v, hv, rfl⟩ := mem_language_seq.mp h
  obtain ⟨d, _, x, hx, rfl⟩ := mem_language_seq.mp hv
  obtain ⟨y, hy, z, _, rfl⟩ := mem_language_seq.mp hx
  obtain ⟨hne, hall⟩ := lo_class.mem_plus.mp hy
  cases y with
  | nil => exact absurd rfl hne
  | cons c y => exact ⟨c, by simp, hall c List.mem_cons_self⟩

theorem avoids_hump {w : List Char} (h : w ∈ hump.language) (rest : List Char) :
    Avoids (fun c => isLo c || isDg c) (w ++ rest) := by
  obtain ⟨c, v, rfl, hc⟩ := hump_leads w h
  exact avoids_cons (by rw [isLo_of_isUp hc, isDg_of_isUp hc]; rfl) _

theorem camelCase_exact : Exact hump.plus (Avoids isWord) := by
  refine .plus rfl hump_exact (fun rest hrest => avoids_of_isWord (fun _ => isWord_loDg) hrest) ?_
    fun w hw rest => avoids_hump hw rest
  exact fun rest hrest =>
    (up_class.fails rest (avoids_of_isWord (fun _ h => (isWord_false h).2.1) hrest)).seq

theorem only_letters (p : Char → Bool) (hlo : ∀ c, isLo c = true → p c = true)
    (hup : ∀ c, isUp c = true → p c = true) (hdg : ∀ c, isDg c = true → p c = true) :
    Only p hump.plus := by
  refine ⟨⟨hup, hdg, ⟨hlo, hlo⟩, hlo, hdg⟩, hup, hdg, ⟨hlo, hlo⟩, hlo, hdg⟩

theorem isWord_of_isLo (c : Char) (h : isLo c = true) : isWord c = true := by simp [isWord, h]

theorem isWord_of_isUp (c : Char) (h : isUp c = true) : isWord c = true := by simp [isWord, h]

theorem isWord_of_isDg (c : Char) (h : isDg c = true) : isWord c = true := by simp [isWord, h]

theorem camelCase_worded : Worded .camelCase where
  leads := hump_leads.plus
  symbols w hw := (only_letters isWord isWord_of_isLo isWord_of_isUp isWord_of_isDg).mem hw
  mixes _ w hw := by
    obtain ⟨u, hu, v, _, rfl⟩ := mem_language_seq.mp hw
    obtain ⟨c, hc, hlo⟩ := hump_mixes hu
    exact ⟨c, List.mem_append_left v hc, hlo⟩
  keeps h := by cases h
  atomic := ⟨_, rfl, camelCase_exact⟩
  fails s hs := (up_class.fails s hs).seq.seq.rule

theorem camelBack_worded : Worded .camelBack where
  leads := lo_class.leads.seq _
  symbols w hw := by
    have honly : Only isWord camelBack := ⟨isWord_of_isLo, ⟨isWord_of_isLo, isWord_of_isDg⟩,
      only_letters isWord isWord_of_isLo isWord_of_isUp isWord_of_isDg⟩
    exact honly.mem hw
  mixes _ w hw := by
    obtain ⟨u, _, v, hv, rfl⟩ := mem_language_seq.mp hw
    obtain ⟨x, _, y, hy, rfl⟩ := mem_language_seq.mp hv
    obtain ⟨c, y, rfl, hc⟩ := hump_leads.plus _ hy
    exact ⟨c, by simp, hc⟩
  keeps h := by cases h
  atomic := by
    refine ⟨_, rfl, (lo_class.exact fun _ => True).seq
      ((lo_class.choice dg_class).star_exact.seq camelCase_exact.rule ?_) fun _ _ _ _ => trivial⟩
    intro v hv rest _
    obtain ⟨c, v, rfl, hc⟩ := hump_leads.plus _ hv
    exact avoids_cons (by rw [isLo_of_isUp hc, isDg_of_isUp hc]; rfl) _
  fails s hs := (lo_class.fails s hs).seq.rule

section Snake

variable {letter : Expr Rule Char} {p : Char → Bool}

theorem snake_exact (hletter : IsClass letter p) (word : ∀ c, isWord c = false → p c = false)
    (under : p '_' = false) : Exact (snake letter) (Avoids isWord) := by
  have hclass := hletter.choice dg_class
  have hfollow : ∀ rest, Avoids isWord rest → Avoids (fun c => p c || isDg c) rest := by
    intro rest hrest c hc
    have hword := hrest c hc
    change (p c || isDg c) = false
    rw [word c hword, (isWord_false hword).2.2.1]
    rfl
  have hgroup : Exact (.seq (.char '_') (Expr.plus (.choice letter dg)))
      (Avoids fun c => p c || isDg c) :=
    ((isClass_char '_').exact fun _ => True).seq hclass.plus_exact fun _ _ _ _ => trivial
  have hbegins : ∀ w ∈ (Expr.seq (.char '_') (Expr.plus (.choice letter dg))).language,
      ∀ rest, Avoids (fun c => p c || isDg c) (w ++ rest) := by
    intro w hw rest
    obtain ⟨u, hu, v, _, rfl⟩ := mem_language_seq.mp hw
    obtain rfl := mem_language_char.mp hu
    exact avoids_cons (by rw [under]; rfl) _
  have hgroups : Exact (.star (.seq (.char '_') (Expr.plus (.choice letter dg))))
      (Avoids isWord) := by
    refine .star rfl hgroup hfollow (fun rest hrest => ?_) hbegins
    refine ((isClass_char '_').fails rest fun c hc => ?_).seq
    exact decide_eq_false (isWord_false (hrest c hc)).2.2.2
  refine (hletter.exact fun _ => True).seq (hclass.star_exact.seq hgroups ?_)
    fun _ _ _ _ => trivial
  exact fun v hv rest hrest => star_first hfollow hbegins hv hrest

theorem snake_only {q : Char → Bool} (hletter : Only q letter)
    (hdg : ∀ c, isDg c = true → q c = true) (under : q '_' = true) : Only q (snake letter) := by
  have hunder : ∀ c, decide (c = '_') = true → q c = true := by
    intro c hc
    rw [of_decide_eq_true hc, under]
  exact ⟨hletter, ⟨hletter, hdg⟩, hunder, ⟨hletter, hdg⟩, hletter, hdg⟩

theorem snake_keeps {q : Char → Bool} (hletter : Only (fun c => !q c) letter)
    (hdg : ∀ c, isDg c = true → q c = false) (under : q '_' = false) {w : List Char}
    (h : w ∈ (snake letter).language) : ∀ c ∈ w, q c = false := by
  have hdigit : ∀ c, isDg c = true → (!q c) = true := by
    intro c hc
    rw [hdg c hc]
    rfl
  have hunder : (!q '_') = true := by
    rw [under]
    rfl
  intro c hc
  have hnot : (!q c) = true := (snake_only hletter hdigit hunder).mem h c hc
  rwa [Bool.not_eq_true'] at hnot

end Snake

theorem lowerSnake_worded : Worded .lowerSnake where
  leads := lo_class.leads.seq _
  symbols w hw := (snake_only isWord_of_isLo isWord_of_isDg rfl : Only isWord (snake lo)).mem hw
  mixes h := by cases h
  keeps _ w hw := by
    have honly : Only (fun c => !isUp c) lo := by
      intro c hc
      show (!isUp c) = true
      rw [isUp_of_isLo hc]
      rfl
    exact snake_keeps honly (fun _ hc => isUp_of_isDg hc) rfl hw
  atomic := ⟨_, rfl, snake_exact lo_class (fun _ h => (isWord_false h).1) rfl⟩
  fails s hs := (lo_class.fails s hs).seq.rule

theorem upperSnake_worded : Worded .upperSnake where
  leads := up_class.leads.seq _
  symbols w hw := (snake_only isWord_of_isUp isWord_of_isDg rfl : Only isWord (snake up)).mem hw
  mixes h := by cases h
  keeps _ w hw := by
    have honly : Only (fun c => !isLo c) up := by
      intro c hc
      show (!isLo c) = true
      rw [isLo_of_isUp hc]
      rfl
    exact snake_keeps honly (fun _ hc => isLo_of_isDg hc) rfl hw
  atomic := ⟨_, rfl, snake_exact up_class (fun _ h => (isWord_false h).2.1) rfl⟩
  fails s hs := (up_class.fails s hs).seq.rule

theorem worded {r : Rule} (h : r ∈ kinds) : Worded r := by
  simp only [kinds, List.mem_cons, List.not_mem_nil, or_false] at h
  rcases h with rfl | rfl | rfl | rfl
  · exact camelCase_worded
  · exact camelBack_worded
  · exact lowerSnake_worded
  · exact upperSnake_worded

end Words

end RustExperiments.Pest.Identifiers
