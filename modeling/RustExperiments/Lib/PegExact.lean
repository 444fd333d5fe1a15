/- module: RustExperiments/Lib/PegExact
   digest: Where committed choices read exactly the words of the declarative language. -/

import Mathlib.Data.List.TakeWhile
import RustExperiments.Lib.Peg

set_option autoImplicit false
set_option relaxedAutoImplicit false

namespace RustExperiments.Lib.Peg

variable {ρ α : Type}

section Reading

/-- Wherever it begins, the expression reads exactly the word `w` of what is left. -/
def Reads (e : Expr ρ α) (w rest : List α) : Prop :=
  ∀ pos, ∃ ts, e.parse ⟨pos, w ++ rest⟩ = some (ts, ⟨pos + w.length, rest⟩)

def Fails (e : Expr ρ α) (s : List α) : Prop := ∀ pos, e.parse ⟨pos, s⟩ = none

def Avoids (p : α → Bool) (s : List α) : Prop := ∀ c ∈ s.head?, p c = false

variable {e f : Expr ρ α} {w v rest : List α}

theorem avoids_nil (p : α → Bool) : Avoids p [] := fun _ h => by cases h

theorem avoids_cons {p : α → Bool} {c : α} (h : p c = false) (s : List α) : Avoids p (c :: s) := by
  intro x hx
  cases hx
  exact h

theorem Reads.seq (first : Reads e w (v ++ rest)) (second : Reads f v rest) :
    Reads (.seq e f) (w ++ v) rest := by
  intro pos
  obtain ⟨us, he⟩ := first pos
  obtain ⟨vs, hf⟩ := second (pos + w.length)
  refine ⟨us ++ vs, ?_⟩
  rw [List.append_assoc, List.length_append, ← Nat.add_assoc, parse_seq_iff]
  exact ⟨us, _, vs, he, hf, rfl⟩

theorem Fails.seq {s : List α} (h : Fails e s) : Fails (.seq e f) s := by
  intro pos
  rw [parse_seq, h pos, Option.bind_none]

theorem Reads.choice_left (h : Reads e w rest) : Reads (.choice e f) w rest := by
  intro pos
  obtain ⟨ts, he⟩ := h pos
  exact ⟨ts, parse_choice_iff.mpr (Or.inl he)⟩

theorem Reads.choice_right (fails : Fails e (w ++ rest)) (h : Reads f w rest) :
    Reads (.choice e f) w rest := by
  intro pos
  obtain ⟨ts, hf⟩ := h pos
  exact ⟨ts, parse_choice_iff.mpr (Or.inr ⟨fails pos, hf⟩)⟩

theorem Fails.choice {s : List α} (first : Fails e s) (second : Fails f s) :
    Fails (.choice e f) s := by
  intro pos
  rw [parse_choice, first pos, second pos]
  rfl

theorem Reads.rule {kind : RuleKind} {r : ρ} (h : Reads e w rest) :
    Reads (.rule kind r e) w rest := by
  intro pos
  obtain ⟨ts, he⟩ := h pos
  exact ⟨_, parse_rule_iff.mpr ⟨ts, he, rfl⟩⟩

theorem Fails.rule {kind : RuleKind} {r : ρ} {s : List α} (h : Fails e s) :
    Fails (.rule kind r e) s := by
  intro pos
  rw [parse_rule, h pos, Option.map_none]

theorem Reads.star_nil (h : Fails e rest) : Reads (.star e) [] rest :=
  fun pos => ⟨[], parse_star_none (h pos)⟩

theorem Reads.star_append (h : e.nullable = false) (first : Reads e w (v ++ rest))
    (others : Reads (.star e) v rest) : Reads (.star e) (w ++ v) rest := by
  intro pos
  obtain ⟨us, he⟩ := first pos
  obtain ⟨vs, hf⟩ := others (pos + w.length)
  refine ⟨us ++ vs, ?_⟩
  rw [List.append_assoc, List.length_append, ← Nat.add_assoc]
  exact parse_star_some h he hf

theorem Reads.normal {r : ρ} (h : Reads e w rest) (pos : ℕ) :
    ∃ ts, (Expr.rule .normal r e).parse ⟨pos, w ++ rest⟩ =
      some ([.mk r pos w ts], ⟨pos + w.length, rest⟩) := by
  obtain ⟨ts, he⟩ := h pos
  have hadv : Advances ⟨pos, w ++ rest⟩ ⟨pos + w.length, rest⟩ w := ⟨rfl, rfl⟩
  exact ⟨ts, parse_rule_iff.mpr ⟨ts, he, (emit_normal hadv ts).symm⟩⟩

theorem Reads.atomic {r : ρ} (h : Reads e w rest) (pos : ℕ) :
    (Expr.rule .atomic r e).parse ⟨pos, w ++ rest⟩ =
      some ([.mk r pos w []], ⟨pos + w.length, rest⟩) := by
  obtain ⟨ts, he⟩ := h pos
  refine parse_rule_iff.mpr ⟨ts, he, ?_⟩
  have hadv : Advances ⟨pos, w ++ rest⟩ ⟨pos + w.length, rest⟩ w := ⟨rfl, rfl⟩
  exact (emit_atomic hadv ts).symm

end Reading

section Exactness

/-- The expression reads every word of its language where this may follow it. -/
def Exact (e : Expr ρ α) (follow : List α → Prop) : Prop :=
  ∀ w ∈ e.language, ∀ rest, follow rest → Reads e w rest

variable {e f : Expr ρ α} {follow first : List α → Prop}

theorem Exact.mono (h : Exact e follow) (stronger : ∀ rest, first rest → follow rest) :
    Exact e first :=
  fun w hw rest hrest => h w hw rest (stronger rest hrest)

theorem Exact.rule {kind : RuleKind} {r : ρ} (h : Exact e follow) :
    Exact (.rule kind r e) follow :=
  fun w hw rest hrest => (h w hw rest hrest).rule

theorem Exact.seq (he : Exact e first) (hf : Exact f follow)
    (between : ∀ v ∈ f.language, ∀ rest, follow rest → first (v ++ rest)) :
    Exact (.seq e f) follow := by
  intro w hw rest hrest
  obtain ⟨u, hu, v, hv, rfl⟩ := mem_language_seq.mp hw
  exact (he u hu _ (between v hv rest hrest)).seq (hf v hv rest hrest)

theorem star_first (ends : ∀ rest, follow rest → first rest)
    (between : ∀ w ∈ e.language, ∀ rest, first (w ++ rest)) {w : List α}
    (hw : w ∈ (Expr.star e).language) {rest : List α} (hrest : follow rest) :
    first (w ++ rest) := by
  refine star_induction (P := fun w => first (w ++ rest)) (ends rest hrest) ?_ hw
  intro u hu v _ _
  rw [List.append_assoc]
  exact between u hu _

theorem Exact.star (nullable : e.nullable = false) (he : Exact e first)
    (ends : ∀ rest, follow rest → first rest) (stops : ∀ rest, follow rest → Fails e rest)
    (between : ∀ w ∈ e.language, ∀ rest, first (w ++ rest)) : Exact (.star e) follow := by
  intro w hw rest hrest
  refine star_induction (P := fun w => w ∈ (Expr.star e).language ∧ Reads (.star e) w rest)
    ⟨nil_mem_star e, .star_nil (stops rest hrest)⟩ ?_ hw |>.2
  rintro u hu v hv ⟨_, hreads⟩
  have hfirst : first (v ++ rest) := star_first ends between hv hrest
  exact ⟨append_mem_star hu hv, .star_append nullable (he u hu _ hfirst) hreads⟩

theorem Exact.plus (nullable : e.nullable = false) (he : Exact e first)
    (ends : ∀ rest, follow rest → first rest) (stops : ∀ rest, follow rest → Fails e rest)
    (between : ∀ w ∈ e.language, ∀ rest, first (w ++ rest)) : Exact e.plus follow :=
  he.seq (.star nullable he ends stops between) fun _ hv _ hrest =>
    star_first ends between hv hrest

end Exactness

section Classes

/-- The expression reads one symbol of the class, and nothing else. -/
structure IsClass (e : Expr ρ α) (p : α → Bool) : Prop where
  language : ∀ w, w ∈ e.language ↔ ∃ c, p c = true ∧ w = [c]
  reads : ∀ c rest, p c = true → Reads e [c] rest
  fails : ∀ s, Avoids p s → Fails e s
  nullable : e.nullable = false

variable {e f : Expr ρ α} {p q : α → Bool}

theorem isClass_sat (p : α → Bool) : IsClass (.sat p : Expr ρ α) p where
  language _ := Iff.rfl
  reads c rest h pos := ⟨[], by rw [List.singleton_append, parse_sat_cons, if_pos h]; rfl⟩
  fails s h pos := by
    cases s with
    | nil => rfl
    | cons c s => rw [parse_sat_cons, if_neg (by rw [h c rfl]; exact Bool.false_ne_true)]
  nullable := rfl

theorem isClass_char [DecidableEq α] (c : α) :
    IsClass (.char c : Expr ρ α) fun x => decide (x = c) :=
  isClass_sat _

theorem IsClass.rule {kind : RuleKind} {r : ρ} (h : IsClass e p) : IsClass (.rule kind r e) p where
  language := h.language
  reads c rest hc := (h.reads c rest hc).rule
  fails s hs := (h.fails s hs).rule
  nullable := h.nullable

theorem IsClass.choice (he : IsClass e p) (hf : IsClass f q) :
    IsClass (.choice e f) fun c => p c || q c where
  language w := by
    rw [mem_language_choice, he.language, hf.language]
    simp only [Bool.or_eq_true, or_and_right, exists_or]
  reads c rest hc := by
    cases hp : p c with
    | true => exact (he.reads c rest hp).choice_left
    | false =>
      rw [hp, Bool.false_or] at hc
      exact (hf.reads c rest hc).choice_right (he.fails _ (avoids_cons hp rest))
  fails s hs := by
    have hboth : ∀ c ∈ s.head?, p c = false ∧ q c = false :=
      fun c hc => Bool.or_eq_false_iff.mp (hs c hc)
    exact (he.fails s fun c hc => (hboth c hc).1).choice (hf.fails s fun c hc => (hboth c hc).2)
  nullable := Bool.or_eq_false_iff.mpr ⟨he.nullable, hf.nullable⟩

theorem IsClass.isSome_iff (h : IsClass e p) {pos : ℕ} {s : List α} :
    (e.parse ⟨pos, s⟩).isSome = true ↔ ∃ c ∈ s.head?, p c = true := by
  constructor
  · intro hsome
    by_contra hnone
    rw [h.fails s (fun c hc => by simpa using fun hp => hnone ⟨c, hc, hp⟩) pos] at hsome
    cases hsome
  · rintro ⟨c, hc, hp⟩
    obtain ⟨rest, rfl⟩ := List.head?_eq_some_iff.mp hc
    obtain ⟨ts, hparse⟩ := h.reads c rest hp pos
    rw [← List.singleton_append, hparse]
    rfl

theorem IsClass.exact (h : IsClass e p) (follow : List α → Prop) : Exact e follow := by
  intro w hw rest _
  obtain ⟨c, hc, rfl⟩ := (h.language w).mp hw
  exact h.reads c rest hc

def Leads (p : α → Bool) (e : Expr ρ α) : Prop :=
  ∀ w ∈ e.language, ∃ c v, w = c :: v ∧ p c = true

theorem IsClass.leads (h : IsClass e p) : Leads p e := by
  intro w hw
  obtain ⟨c, hc, rfl⟩ := (h.language w).mp hw
  exact ⟨c, [], rfl, hc⟩

theorem Leads.seq (h : Leads p e) (f : Expr ρ α) : Leads p (.seq e f) := by
  intro w hw
  obtain ⟨u, hu, v, _, rfl⟩ := mem_language_seq.mp hw
  obtain ⟨c, u, rfl, hc⟩ := h u hu
  exact ⟨c, u ++ v, rfl, hc⟩

theorem Leads.plus (h : Leads p e) : Leads p e.plus := h.seq _

theorem IsClass.mem_star (h : IsClass e p) {w : List α} :
    w ∈ (Expr.star e).language ↔ ∀ c ∈ w, p c = true := by
  constructor
  · intro hw
    refine star_induction (P := fun w => ∀ c ∈ w, p c = true) (fun _ hc => by cases hc) ?_ hw
    intro u hu v _ hv c hc
    obtain ⟨x, hx, rfl⟩ := (h.language u).mp hu
    rcases List.mem_cons.mp hc with rfl | hc
    · exact hx
    · exact hv c hc
  · intro hw
    induction w with
    | nil => exact nil_mem_star e
    | cons c w ih =>
      have hc : [c] ∈ e.language := (h.language [c]).mpr ⟨c, hw c List.mem_cons_self, rfl⟩
      exact append_mem_star hc (ih fun x hx => hw x (List.mem_cons_of_mem c hx))

theorem IsClass.star_exact (h : IsClass e p) : Exact (.star e) (Avoids p) :=
  Exact.star h.nullable (h.exact fun _ => True) (fun _ _ => trivial) h.fails fun _ _ _ => trivial

theorem IsClass.mem_plus (h : IsClass e p) {w : List α} :
    w ∈ e.plus.language ↔ w ≠ [] ∧ ∀ c ∈ w, p c = true := by
  rw [Expr.plus, mem_language_seq]
  constructor
  · rintro ⟨u, hu, v, hv, rfl⟩
    obtain ⟨c, hc, rfl⟩ := (h.language u).mp hu
    refine ⟨List.cons_ne_nil c v, fun x hx => ?_⟩
    rcases List.mem_cons.mp hx with rfl | hx
    · exact hc
    · exact h.mem_star.mp hv x hx
  · rintro ⟨hne, hw⟩
    cases w with
    | nil => exact absurd rfl hne
    | cons c w =>
      refine ⟨[c], (h.language [c]).mpr ⟨c, hw c List.mem_cons_self, rfl⟩, w, ?_, rfl⟩
      exact h.mem_star.mpr fun x hx => hw x (List.mem_cons_of_mem c hx)

theorem IsClass.plus_exact (h : IsClass e p) : Exact e.plus (Avoids p) :=
  Exact.seq (h.exact fun _ => True) h.star_exact fun _ _ _ _ => trivial

theorem avoids_append {w rest : List α} (hw : ∀ c ∈ w.head?, p c = false)
    (hrest : w = [] → Avoids p rest) : Avoids p (w ++ rest) := by
  cases w with
  | nil => exact hrest rfl
  | cons c w => exact avoids_cons (hw c rfl) _

/-- A run of a class and then one of a wider class: the first takes what it can, the second the
rest. -/
theorem IsClass.plus_star_exact (he : IsClass e p) (hf : IsClass f q)
    (wider : ∀ c, q c = false → p c = false) : Exact (.seq e.plus (.star f)) (Avoids q) := by
  intro w hw rest hrest
  obtain ⟨u, hu, v, hv, rfl⟩ := mem_language_seq.mp hw
  obtain ⟨hne, hall⟩ := he.mem_plus.mp hu
  have hword : u ++ v.takeWhile p ∈ e.plus.language := by
    refine he.mem_plus.mpr ⟨fun hnil => hne (List.append_eq_nil_iff.mp hnil).1, fun c hc => ?_⟩
    rcases List.mem_append.mp hc with hc | hc
    · exact hall c hc
    · exact List.mem_takeWhile_imp hc
  have hothers : v.dropWhile p ∈ (Expr.star f).language :=
    hf.mem_star.mpr fun c hc => hf.mem_star.mp hv c ((List.dropWhile_suffix p).mem hc)
  have hfollow : Avoids p (v.dropWhile p ++ rest) := by
    refine avoids_append (fun c hc => ?_) fun _ c hc => wider c (hrest c hc)
    have hhead := List.head?_dropWhile_not p v
    rw [Option.mem_def.mp hc] at hhead
    exact hhead
  have hreads := (he.plus_exact _ hword _ hfollow).seq (hf.star_exact _ hothers rest hrest)
  rwa [List.append_assoc, List.takeWhile_append_dropWhile] at hreads

theorem prefix_of_avoids {u w s rest : List α} (h : u ++ s = w ++ rest)
    (hu : ∀ c ∈ u, p c = true) (hrest : Avoids p rest) : u <+: w := by
  rcases List.append_eq_append_iff.mp h with ⟨v, hw, _⟩ | ⟨v, rfl, hv⟩
  · exact ⟨v, hw.symm⟩
  · cases v with
    | nil => rw [List.append_nil]
    | cons c v =>
      have hc := hu c (List.mem_append_right w List.mem_cons_self)
      rw [hrest c (by rw [hv]; rfl)] at hc
      cases hc

def Only (p : α → Bool) : Expr ρ α → Prop
  | .soi => True
  | .endOfInput => True
  | .sat q => ∀ c, q c = true → p c = true
  | .seq e f => Only p e ∧ Only p f
  | .choice e f => Only p e ∧ Only p f
  | .star e => Only p e
  | .rule _ _ e => Only p e

theorem Only.mem (h : Only p e) {w : List α} (hw : w ∈ e.language) : ∀ c ∈ w, p c = true := by
  induction e generalizing w with
  | soi =>
    obtain rfl : w = [] := hw
    exact fun _ hc => by cases hc
  | endOfInput =>
    obtain rfl : w = [] := hw
    exact fun _ hc => by cases hc
  | sat q =>
    obtain ⟨x, hx, rfl⟩ := hw
    intro c hc
    obtain rfl := List.mem_singleton.mp hc
    exact h c hx
  | seq e f ihe ihf =>
    obtain ⟨u, hu, v, hv, rfl⟩ := mem_language_seq.mp hw
    intro c hc
    rcases List.mem_append.mp hc with hc | hc
    · exact ihe h.1 hu c hc
    · exact ihf h.2 hv c hc
  | choice e f ihe ihf =>
    rcases hw with hw | hw
    · exact ihe h.1 hw
    · exact ihf h.2 hw
  | star e ih =>
    refine star_induction (P := fun w => ∀ c ∈ w, p c = true) (fun _ hc => by cases hc) ?_ hw
    intro u hu v _ hv c hc
    rcases List.mem_append.mp hc with hc | hc
    · exact ih h hu c hc
    · exact hv c hc
  | rule kind r e ih => exact ih h hw

end Classes

section Lists

variable [DecidableEq α] {e : Expr ρ α} {follow : List α → Prop} {c : α}

theorem intercalate_mem {words : List (List α)} (ne : words ≠ [])
    (h : ∀ w ∈ words, w ∈ e.language) :
    [c].intercalate words ∈ (Expr.seq e (.star (.seq (.char c) e))).language := by
  induction words with
  | nil => exact absurd rfl ne
  | cons w words ih =>
    have hw := h w List.mem_cons_self
    cases words with
    | nil =>
      rw [List.intercalate_singleton]
      exact mem_language_seq.mpr ⟨w, hw, [], nil_mem_star _, List.append_nil w⟩
    | cons w' words =>
      obtain ⟨u, hu, v, hv, huv⟩ := mem_language_seq.mp
        (ih (List.cons_ne_nil w' words) fun x hx => h x (List.mem_cons_of_mem w hx))
      rw [List.intercalate_cons_cons, ← huv]
      have hsep : c :: u ∈ (Expr.seq (.char c) e : Expr ρ α).language :=
        mem_language_seq.mpr ⟨[c], mem_language_char.mpr rfl, u, hu, rfl⟩
      exact mem_language_seq.mpr
        ⟨w, hw, c :: u ++ v, append_mem_star hsep hv, by simp⟩

theorem Exact.list (he : Exact e follow) (sep : ∀ rest, follow (c :: rest)) (done : follow [])  :
    Exact (.seq e (.star (.seq (.char c) e))) fun rest => rest = [] := by
  have hends : ∀ rest : List α, rest = [] → follow rest := by
    rintro rest rfl
    exact done
  have hbegins : ∀ w ∈ (Expr.seq (.char c) e : Expr ρ α).language, ∀ rest, follow (w ++ rest) := by
    intro w hw rest
    obtain ⟨u, hu, v, _, rfl⟩ := mem_language_seq.mp hw
    obtain rfl := mem_language_char.mp hu
    exact sep (v ++ rest)
  have hitem : Exact (.seq (.char c) e) follow :=
    ((isClass_char c).exact fun _ => True).seq he fun _ _ _ _ => trivial
  refine he.seq (.star rfl hitem hends ?_ hbegins) fun v hv rest hrest =>
    star_first hends hbegins hv hrest
  rintro rest rfl
  exact ((isClass_char c).fails [] (avoids_nil _)).seq

end Lists

section Ranges

theorem inRange_disjoint {first last first' last' c : Char}
    (h : last.toNat < first'.toNat ∨ last'.toNat < first.toNat)
    (hc : inRange first last c = true) : inRange first' last' c = false := by
  rw [inRange, decide_eq_true_iff] at hc
  rw [inRange, decide_eq_false_iff_not]
  omega

end Ranges

end RustExperiments.Lib.Peg
