/- module: RustExperiments/Lib/Peg
   digest: Parsing expressions with their tokens, and the languages that they read declaratively. -/

import Mathlib.Computability.Language

set_option autoImplicit false
set_option relaxedAutoImplicit false

namespace RustExperiments.Lib.Peg

open Computability

variable {ρ α : Type}

/-- What a rule leaves in the tokens: one with the tokens of its body inside, nothing but those, or
one with nothing inside. -/
inductive RuleKind where
  | normal
  | silent
  | atomic
  deriving DecidableEq, Repr

/-- A parsing expression. A rule stands for its body, so these grammars are not recursive. -/
inductive Expr (ρ α : Type) where
  | soi
  | endOfInput
  | sat (p : α → Bool)
  | seq (e f : Expr ρ α)
  | choice (e f : Expr ρ α)
  | star (e : Expr ρ α)
  | rule (kind : RuleKind) (r : ρ) (e : Expr ρ α)

/-- `first..last` -/
def inRange (first last c : Char) : Bool :=
  decide (first.toNat ≤ c.toNat ∧ c.toNat ≤ last.toNat)

namespace Expr

def plus (e : Expr ρ α) : Expr ρ α := seq e (star e)

def char [DecidableEq α] (c : α) : Expr ρ α := sat fun x => decide (x = c)

/-- `e | f | ..` -/
def anyOf : List (Expr ρ α) → Expr ρ α
  | [] => sat fun _ => false
  | [e] => e
  | e :: f :: es => choice e (anyOf (f :: es))

end Expr

/-- Where the parser stands: how much it has read, and what is left. -/
structure Position (α : Type) where
  pos : ℕ
  rest : List α
  deriving DecidableEq, Repr

/-- A token: the rule, where its text begins, the text, and the tokens inside. -/
inductive Pair (ρ α : Type) where
  | mk (rule : ρ) (start : ℕ) (text : List α) (inner : List (Pair ρ α))

namespace Pair

def rule : Pair ρ α → ρ
  | .mk r _ _ _ => r

def start : Pair ρ α → ℕ
  | .mk _ n _ _ => n

def text : Pair ρ α → List α
  | .mk _ _ w _ => w

end Pair

abbrev Parsed (ρ α : Type) := List (Pair ρ α) × Position α

/-- Greedy repetition, at most `n` times. -/
def repeated (p : Position α → Option (Parsed ρ α)) : ℕ → Position α → Parsed ρ α
  | 0, s => ([], s)
  | n + 1, s =>
    match p s with
    | none => ([], s)
    | some (ts, t) => (ts ++ (repeated p n t).1, (repeated p n t).2)

def emit (kind : RuleKind) (r : ρ) (s : Position α) : Parsed ρ α → List (Pair ρ α)
  | (ts, t) =>
    match kind with
    | .normal => [.mk r s.pos (s.rest.take (t.pos - s.pos)) ts]
    | .silent => ts
    | .atomic => [.mk r s.pos (s.rest.take (t.pos - s.pos)) []]

/-- Ordered choice and greedy repetition, neither of which is ever reconsidered. What is repeated
must read something, so the length of the input bounds the repetitions. -/
def Expr.parse : Expr ρ α → Position α → Option (Parsed ρ α)
  | .soi, s => if s.pos = 0 then some ([], s) else none
  | .endOfInput, s => if s.rest.isEmpty then some ([], s) else none
  | .sat _, ⟨_, []⟩ => none
  | .sat p, ⟨pos, c :: rest⟩ => if p c then some ([], ⟨pos + 1, rest⟩) else none
  | .seq e f, s => (e.parse s).bind fun a => (f.parse a.2).map fun b => (a.1 ++ b.1, b.2)
  | .choice e f, s => (e.parse s).or (f.parse s)
  | .star e, s => some (repeated e.parse s.rest.length s)
  | .rule kind r e, s => (e.parse s).map fun a => (emit kind r s a, a.2)

section Equations

variable (e f : Expr ρ α) (s : Position α)

theorem repeated_succ (p : Position α → Option (Parsed ρ α)) (n : ℕ) :
    repeated p (n + 1) s =
      match p s with
      | none => ([], s)
      | some (ts, t) => (ts ++ (repeated p n t).1, (repeated p n t).2) := rfl

theorem repeated_stop {p : Position α → Option (Parsed ρ α)} {s : Position α} (h : p s = none)
    (n : ℕ) : repeated p n s = ([], s) := by
  cases n with
  | zero => rfl
  | succ n => rw [repeated_succ, h]

theorem repeated_more {p : Position α → Option (Parsed ρ α)} {s : Position α} {a : Parsed ρ α}
    (h : p s = some a) (n : ℕ) :
    repeated p (n + 1) s = (a.1 ++ (repeated p n a.2).1, (repeated p n a.2).2) := by
  rw [repeated_succ, h]

theorem parse_soi : (Expr.soi : Expr ρ α).parse s = if s.pos = 0 then some ([], s) else none := rfl

theorem parse_endOfInput :
    (Expr.endOfInput : Expr ρ α).parse s = if s.rest.isEmpty then some ([], s) else none := rfl

theorem parse_sat_cons (p : α → Bool) (pos : ℕ) (c : α) (rest : List α) :
    (Expr.sat p : Expr ρ α).parse ⟨pos, c :: rest⟩ =
      if p c then some ([], ⟨pos + 1, rest⟩) else none := rfl

theorem parse_seq : (Expr.seq e f).parse s =
    (e.parse s).bind fun a => (f.parse a.2).map fun b => (a.1 ++ b.1, b.2) := rfl

theorem parse_choice : (Expr.choice e f).parse s = (e.parse s).or (f.parse s) := rfl

theorem parse_star : (Expr.star e).parse s = some (repeated e.parse s.rest.length s) := rfl

theorem parse_rule (kind : RuleKind) (r : ρ) :
    (Expr.rule kind r e).parse s = (e.parse s).map fun a => (emit kind r s a, a.2) := rfl

end Equations

/-- The declarative reading, with free choice and free repetition. -/
def Expr.language : Expr ρ α → Language α
  | .soi => 1
  | .endOfInput => 1
  | .sat p => {w | ∃ c, p c = true ∧ w = [c]}
  | .seq e f => e.language * f.language
  | .choice e f => e.language + f.language
  | .star e => e.language∗
  | .rule _ _ e => e.language

section Language

variable {e f : Expr ρ α} {w : List α}

theorem mem_language_sat {p : α → Bool} :
    w ∈ (Expr.sat p : Expr ρ α).language ↔ ∃ c, p c = true ∧ w = [c] := Iff.rfl

theorem mem_language_char [DecidableEq α] {c : α} :
    w ∈ (Expr.char c : Expr ρ α).language ↔ w = [c] := by
  rw [Expr.char, mem_language_sat]
  simp

theorem mem_language_seq :
    w ∈ (Expr.seq e f).language ↔ ∃ u ∈ e.language, ∃ v ∈ f.language, u ++ v = w :=
  Language.mem_mul

theorem mem_language_choice :
    w ∈ (Expr.choice e f).language ↔ w ∈ e.language ∨ w ∈ f.language := Iff.rfl

theorem nil_mem_star (e : Expr ρ α) : [] ∈ (Expr.star e).language := Language.nil_mem_kstar _

theorem append_mem_star {u v : List α} (hu : u ∈ e.language) (hv : v ∈ (Expr.star e).language) :
    u ++ v ∈ (Expr.star e).language := by
  obtain ⟨words, rfl, hwords⟩ := hv
  refine ⟨u :: words, rfl, fun x hx => ?_⟩
  rcases List.mem_cons.mp hx with rfl | hx
  · exact hu
  · exact hwords x hx

theorem star_induction {P : List α → Prop} (nil : P [])
    (cons : ∀ u ∈ e.language, ∀ v ∈ (Expr.star e).language, P v → P (u ++ v))
    (h : w ∈ (Expr.star e).language) : P w := by
  obtain ⟨words, rfl, hwords⟩ := h
  induction words with
  | nil => exact nil
  | cons u words ih =>
    have hrest : ∀ x ∈ words, x ∈ e.language := fun x hx => hwords x (List.mem_cons_of_mem u hx)
    exact cons u (hwords u List.mem_cons_self) _ ⟨words, rfl, hrest⟩ (ih hrest)

end Language

section Soundness

structure Advances (s t : Position α) (w : List α) : Prop where
  rest : s.rest = w ++ t.rest
  pos : t.pos = s.pos + w.length

theorem Advances.refl (s : Position α) : Advances s s [] := ⟨rfl, rfl⟩

theorem Advances.trans {s t u : Position α} {w v : List α} (h : Advances s t w)
    (h' : Advances t u v) : Advances s u (w ++ v) := by
  refine ⟨?_, ?_⟩
  · rw [h.rest, h'.rest, List.append_assoc]
  · rw [h'.pos, h.pos, List.length_append, Nat.add_assoc]

theorem Advances.text {s t : Position α} {w : List α} (h : Advances s t w) :
    s.rest.take (t.pos - s.pos) = w := by
  rw [h.rest, h.pos, Nat.add_sub_cancel_left, List.take_left]

theorem emit_atomic {r : ρ} {s t : Position α} {w : List α} (h : Advances s t w)
    (ts : List (Pair ρ α)) : emit .atomic r s (ts, t) = [.mk r s.pos w []] := by
  rw [← h.text]
  rfl

theorem emit_normal {r : ρ} {s t : Position α} {w : List α} (h : Advances s t w)
    (ts : List (Pair ρ α)) : emit .normal r s (ts, t) = [.mk r s.pos w ts] := by
  rw [← h.text]
  rfl

variable {e f : Expr ρ α} {s t : Position α} {ts : List (Pair ρ α)}

theorem parse_sat_iff {p : α → Bool} :
    (Expr.sat p).parse s = some (ts, t) ↔ ∃ c, p c = true ∧ ts = [] ∧ Advances s t [c] := by
  rcases s with ⟨pos, _ | ⟨c, rest⟩⟩
  · constructor
    · intro h
      cases h
    · rintro ⟨c, _, _, hadv⟩
      cases hadv.rest
  · rw [parse_sat_cons]
    constructor
    · intro h
      split_ifs at h with hp
      cases h
      exact ⟨c, hp, rfl, rfl, rfl⟩
    · rintro ⟨c', hp, rfl, hrest, hpos⟩
      rcases t with ⟨pos', rest'⟩
      obtain ⟨rfl, rfl⟩ : c = c' ∧ rest = rest' := List.cons.inj hrest
      obtain rfl : pos' = pos + 1 := hpos
      rw [if_pos hp]

theorem parse_seq_iff :
    (Expr.seq e f).parse s = some (ts, t) ↔ ∃ us mid vs, e.parse s = some (us, mid) ∧
      f.parse mid = some (vs, t) ∧ ts = us ++ vs := by
  simp only [parse_seq, Option.bind_eq_some_iff, Option.map_eq_some_iff, Prod.exists,
    Prod.mk.injEq]
  constructor
  · rintro ⟨us, mid, he, vs, t', hf, rfl, rfl⟩
    exact ⟨us, mid, vs, he, hf, rfl⟩
  · rintro ⟨us, mid, vs, he, hf, rfl⟩
    exact ⟨us, mid, he, vs, t, hf, rfl, rfl⟩

theorem parse_choice_iff :
    (Expr.choice e f).parse s = some (ts, t) ↔
      e.parse s = some (ts, t) ∨ e.parse s = none ∧ f.parse s = some (ts, t) := by
  rw [parse_choice, Option.or_eq_some_iff]

theorem parse_anyOf_cons (e : Expr ρ α) (es : List (Expr ρ α)) (s : Position α) :
    (Expr.anyOf (e :: es)).parse s = (e.parse s).or ((Expr.anyOf es).parse s) := by
  cases es with
  | nil =>
    have hnone : (Expr.anyOf ([] : List (Expr ρ α))).parse s = none := by
      rcases s with ⟨pos, _ | ⟨c, rest⟩⟩ <;> rfl
    rw [hnone, Option.or_none]
    rfl
  | cons f es => exact parse_choice e (Expr.anyOf (f :: es)) s

theorem parse_anyOf_of {before : List (Expr ρ α)} (fails : ∀ f ∈ before, f.parse s = none)
    (reads : e.parse s = some (ts, t)) (after : List (Expr ρ α)) :
    (Expr.anyOf (before ++ e :: after)).parse s = some (ts, t) := by
  induction before with
  | nil => rw [List.nil_append, parse_anyOf_cons, reads, Option.some_or]
  | cons f before ih =>
    rw [List.cons_append, parse_anyOf_cons, fails f List.mem_cons_self, Option.none_or]
    exact ih fun g hg => fails g (List.mem_cons_of_mem f hg)

theorem parse_anyOf_isSome {es : List (Expr ρ α)} :
    ((Expr.anyOf es).parse s).isSome = true ↔ ∃ e ∈ es, (e.parse s).isSome = true := by
  induction es with
  | nil =>
    constructor
    · intro h
      rcases s with ⟨pos, _ | ⟨c, rest⟩⟩ <;> cases h
    · rintro ⟨e, he, _⟩
      cases he
  | cons e es ih =>
    rw [parse_anyOf_cons, Option.isSome_or, Bool.or_eq_true, ih]
    simp only [List.mem_cons, exists_eq_or_imp]

theorem parse_seq_star_isSome :
    ((Expr.seq e (.star f)).parse s).isSome = (e.parse s).isSome := by
  rw [parse_seq]
  cases e.parse s with
  | none => rfl
  | some a => rfl

theorem parse_rule_isSome {kind : RuleKind} {r : ρ} :
    ((Expr.rule kind r e).parse s).isSome = (e.parse s).isSome := by
  rw [parse_rule, Option.isSome_map]

theorem parse_anyOf_sound {es : List (Expr ρ α)}
    (h : (Expr.anyOf es).parse s = some (ts, t)) : ∃ e ∈ es, e.parse s = some (ts, t) := by
  induction es with
  | nil =>
    obtain ⟨c, hc, _⟩ := parse_sat_iff.mp h
    cases hc
  | cons e es ih =>
    rw [parse_anyOf_cons, Option.or_eq_some_iff] at h
    rcases h with h | ⟨_, h⟩
    · exact ⟨e, List.mem_cons_self, h⟩
    · obtain ⟨f, hf, hread⟩ := ih h
      exact ⟨f, List.mem_cons_of_mem e hf, hread⟩

theorem parse_rule_iff {kind : RuleKind} {r : ρ} :
    (Expr.rule kind r e).parse s = some (ts, t) ↔
      ∃ us, e.parse s = some (us, t) ∧ ts = emit kind r s (us, t) := by
  simp only [parse_rule, Option.map_eq_some_iff, Prod.exists, Prod.mk.injEq]
  constructor
  · rintro ⟨us, t', h, rfl, rfl⟩
    exact ⟨us, h, rfl⟩
  · rintro ⟨us, h, rfl⟩
    exact ⟨us, t, h, rfl, rfl⟩

theorem repeated_induction {p : Position α → Option (Parsed ρ α)}
    {P : Position α → List (Pair ρ α) → Position α → Prop} (stop : ∀ s, P s [] s)
    (more : ∀ s us mid vs t, p s = some (us, mid) → P mid vs t → P s (us ++ vs) t) (n : ℕ)
    (s : Position α) : P s (repeated p n s).1 (repeated p n s).2 := by
  induction n generalizing s with
  | zero => exact stop s
  | succ n ih =>
    cases h : p s with
    | none =>
      rw [repeated_stop h]
      exact stop s
    | some a =>
      rw [repeated_more h]
      exact more s a.1 a.2 _ _ h (ih a.2)

theorem parse_star_induction {P : Position α → List (Pair ρ α) → Position α → Prop}
    (stop : ∀ s, P s [] s)
    (more : ∀ s us mid vs t, e.parse s = some (us, mid) → P mid vs t → P s (us ++ vs) t)
    (h : (Expr.star e).parse s = some (ts, t)) : P s ts t := by
  rw [parse_star, Option.some.injEq] at h
  have hrepeated := repeated_induction stop more s.rest.length s
  rwa [h] at hrepeated

/-- What the parser reads is a word of the language, whatever choices it commits to. -/
theorem parse_sound (h : e.parse s = some (ts, t)) : ∃ w ∈ e.language, Advances s t w := by
  induction e generalizing s t ts with
  | soi =>
    rw [parse_soi] at h
    split_ifs at h
    cases h
    exact ⟨[], rfl, .refl s⟩
  | endOfInput =>
    rw [parse_endOfInput] at h
    split_ifs at h
    cases h
    exact ⟨[], rfl, .refl s⟩
  | sat p =>
    obtain ⟨c, hp, _, hadv⟩ := parse_sat_iff.mp h
    exact ⟨[c], ⟨c, hp, rfl⟩, hadv⟩
  | seq e f ihe ihf =>
    obtain ⟨us, mid, vs, he, hf, _⟩ := parse_seq_iff.mp h
    obtain ⟨w, hw, hadv⟩ := ihe he
    obtain ⟨v, hv, hadv'⟩ := ihf hf
    exact ⟨w ++ v, Language.append_mem_mul hw hv, hadv.trans hadv'⟩
  | choice e f ihe ihf =>
    rcases parse_choice_iff.mp h with he | ⟨_, hf⟩
    · obtain ⟨w, hw, hadv⟩ := ihe he
      exact ⟨w, Or.inl hw, hadv⟩
    · obtain ⟨w, hw, hadv⟩ := ihf hf
      exact ⟨w, Or.inr hw, hadv⟩
  | star e ih =>
    refine parse_star_induction (P := fun s _ t => ∃ w ∈ (Expr.star e).language, Advances s t w)
      (fun s => ⟨[], nil_mem_star e, .refl s⟩) ?_ h
    intro s us mid vs t he hrest
    obtain ⟨w, hw, hadv⟩ := ih he
    obtain ⟨v, hv, hadv'⟩ := hrest
    exact ⟨w ++ v, append_mem_star hw hv, hadv.trans hadv'⟩
  | rule kind r e ih =>
    obtain ⟨us, he, _⟩ := parse_rule_iff.mp h
    exact ih he

def Expr.bare : Expr ρ α → Bool
  | .soi => true
  | .endOfInput => true
  | .sat _ => true
  | .seq e f => e.bare && f.bare
  | .choice e f => e.bare && f.bare
  | .star e => e.bare
  | .rule _ _ _ => false

theorem parse_bare (h : e.bare = true) (hparse : e.parse s = some (ts, t)) : ts = [] := by
  induction e generalizing s t ts with
  | soi =>
    rw [parse_soi] at hparse
    split_ifs at hparse
    cases hparse
    rfl
  | endOfInput =>
    rw [parse_endOfInput] at hparse
    split_ifs at hparse
    cases hparse
    rfl
  | sat p =>
    obtain ⟨_, _, hts, _⟩ := parse_sat_iff.mp hparse
    exact hts
  | seq e f ihe ihf =>
    obtain ⟨he, hf⟩ := Bool.and_eq_true_iff.mp h
    obtain ⟨us, mid, vs, hfirst, hsecond, rfl⟩ := parse_seq_iff.mp hparse
    rw [ihe he hfirst, ihf hf hsecond, List.append_nil]
  | choice e f ihe ihf =>
    obtain ⟨he, hf⟩ := Bool.and_eq_true_iff.mp h
    rcases parse_choice_iff.mp hparse with hfirst | ⟨_, hsecond⟩
    · exact ihe he hfirst
    · exact ihf hf hsecond
  | star e ih =>
    refine parse_star_induction (P := fun _ ts _ => ts = []) (fun _ => rfl) ?_ hparse
    rintro s us mid vs t hfirst rfl
    rw [ih h hfirst, List.append_nil]
  | rule kind r e => cases h

end Soundness

section Progress

def Expr.nullable : Expr ρ α → Bool
  | .soi => true
  | .endOfInput => true
  | .sat _ => false
  | .seq e f => e.nullable && f.nullable
  | .choice e f => e.nullable || f.nullable
  | .star _ => true
  | .rule _ _ e => e.nullable

theorem ne_nil_of_mem_language {e : Expr ρ α} (h : e.nullable = false) {w : List α}
    (hw : w ∈ e.language) : w ≠ [] := by
  induction e generalizing w with
  | soi => cases h
  | endOfInput => cases h
  | sat p =>
    obtain ⟨c, _, rfl⟩ := hw
    exact List.cons_ne_nil c []
  | seq e f ihe ihf =>
    obtain ⟨u, hu, v, hv, rfl⟩ := mem_language_seq.mp hw
    rw [Ne, List.append_eq_nil_iff, not_and_or]
    rcases Bool.and_eq_false_iff.mp h with he | hf
    · exact Or.inl (ihe he hu)
    · exact Or.inr (ihf hf hv)
  | choice e f ihe ihf =>
    obtain ⟨he, hf⟩ := Bool.or_eq_false_iff.mp h
    rcases hw with hw | hw
    · exact ihe he hw
    · exact ihf hf hw
  | star e => cases h
  | rule kind r e ih => exact ih h hw

theorem repeated_eq {p : Position α → Option (Parsed ρ α)}
    (progress : ∀ s ts t, p s = some (ts, t) → t.rest.length < s.rest.length) {n k : ℕ}
    {s : Position α} (hn : s.rest.length ≤ n) (hk : s.rest.length ≤ k) :
    repeated p n s = repeated p k s := by
  induction n generalizing k s with
  | zero =>
    have hnone : p s = none := by
      cases h : p s with
      | none => rfl
      | some a =>
        have hless := progress s a.1 a.2 h
        omega
    rw [repeated_stop hnone, repeated_stop hnone]
  | succ n ih =>
    cases h : p s with
    | none => rw [repeated_stop h, repeated_stop h]
    | some a =>
      have hless := progress s a.1 a.2 h
      obtain ⟨m, rfl⟩ : ∃ m, k = m + 1 := Nat.exists_eq_succ_of_ne_zero (by omega)
      have hrest : repeated p n a.2 = repeated p m a.2 := ih (by omega) (by omega)
      rw [repeated_more h, repeated_more h, hrest]

theorem parse_progress {e : Expr ρ α} (h : e.nullable = false) (s : Position α)
    (ts : List (Pair ρ α)) (t : Position α) (hparse : e.parse s = some (ts, t)) :
    t.rest.length < s.rest.length := by
  obtain ⟨w, hw, hadv⟩ := parse_sound hparse
  have hlength : 0 < w.length := List.length_pos_iff.mpr (ne_nil_of_mem_language h hw)
  rw [hadv.rest, List.length_append]
  omega

theorem parse_star_some {e : Expr ρ α} (h : e.nullable = false) {s mid t : Position α}
    {us vs : List (Pair ρ α)} (first : e.parse s = some (us, mid))
    (others : (Expr.star e).parse mid = some (vs, t)) :
    (Expr.star e).parse s = some (us ++ vs, t) := by
  have hless := parse_progress h s us mid first
  rw [parse_star, Option.some.injEq] at others ⊢
  obtain ⟨n, hn⟩ : ∃ n, s.rest.length = n + 1 := Nat.exists_eq_succ_of_ne_zero (by omega)
  have hmid : mid.rest.length ≤ n := by omega
  have hrest := repeated_eq (parse_progress h) hmid (le_refl _)
  rw [hn, repeated_more first, hrest, others]

theorem parse_star_none {e : Expr ρ α} {s : Position α} (h : e.parse s = none) :
    (Expr.star e).parse s = some ([], s) := by
  rw [parse_star, repeated_stop h]

end Progress

end RustExperiments.Lib.Peg
