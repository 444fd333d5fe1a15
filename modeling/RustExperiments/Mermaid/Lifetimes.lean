/- module: RustExperiments/Mermaid/Lifetimes
   digest: What runs write on their canvases, and when the diagrams keep lifetimes. -/

import RustExperiments.Mermaid.Canvas
import RustExperiments.Mermaid.Diagram

set_option autoImplicit false
set_option relaxedAutoImplicit false

namespace RustExperiments.Mermaid

open RustExperiments.Lib

section Lines

def headerLines : List Line := [.title, .create 0 "root".toList, .autonumber]

def createLines (i : ℤ) (name : List Char) : List Line :=
  [.create i name, .arrow true 0 i "create".toList]

def destroyLines (i : ℤ) : List Line := [.destroy i, .arrow true i 0 "destroy".toList]

variable {ls ms : List Line} {i j source target : ℤ} {name text : List Char} {dashed : Bool}

@[simp] theorem creates_create : (Line.create j name).creates i ↔ i = j := by
  simp [Line.creates, eq_comm]

@[simp] theorem creates_destroy : ¬ (Line.destroy j).creates i := Bool.false_ne_true

@[simp] theorem creates_arrow : ¬ (Line.arrow dashed source target text).creates i :=
  Bool.false_ne_true

@[simp] theorem creates_title : ¬ Line.title.creates i := Bool.false_ne_true

@[simp] theorem creates_autonumber : ¬ Line.autonumber.creates i := Bool.false_ne_true

@[simp] theorem introduced_nil : ¬ Introduced [] i := by
  simp [Introduced]

@[simp] theorem introduced_cons (l : Line) :
    Introduced (l :: ls) i ↔ l.creates i ∨ Introduced ls i := by
  simp [Introduced]

@[simp] theorem introduced_append :
    Introduced (ls ++ ms) i ↔ Introduced ls i ∨ Introduced ms i := by
  simp [Introduced, or_and_right, exists_or]

theorem alive_arrow : Alive (ls ++ [.arrow dashed source target text]) i ↔ Alive ls i := by
  simp [Alive]

theorem alive_createLines :
    Alive (ls ++ createLines j name) i ↔ (Introduced ls i ∨ i = j) ∧ .destroy i ∉ ls := by
  simp [Alive, createLines]

theorem alive_destroyLines : Alive (ls ++ destroyLines j) i ↔ Alive ls i ∧ i ≠ j := by
  simp [Alive, destroyLines, and_assoc]

end Lines

section Drawings

/-- How the calls draw on a canvas. The source of an arrow is alive on it; its target is known to
be so in a `strict` drawing only. -/
inductive Drawn (strict : Prop) : List Line → Prop where
  | header : Drawn strict headerLines
  | create {ls : List Line} (drawn : Drawn strict ls) {i : ℤ} (fresh : ¬ Introduced ls i)
      (name : List Char) : Drawn strict (ls ++ createLines i name)
  | arrow {ls : List Line} (drawn : Drawn strict ls) {source target : ℤ} (known : Alive ls source)
      (sound : strict → Alive ls target) (text : List Char) :
      Drawn strict (ls ++ [.arrow false source target text])
  | destroy {ls : List Line} (drawn : Drawn strict ls) {i : ℤ} (known : Alive ls i)
      (nonroot : i ≠ 0) : Drawn strict (ls ++ destroyLines i)

variable {strict strict' : Prop} {ls : List Line}

theorem Drawn.mono (h : strict' → strict) (drawn : Drawn strict ls) : Drawn strict' ls := by
  induction drawn with
  | header => exact .header
  | create _ fresh name ih => exact .create ih fresh name
  | arrow _ known sound text ih => exact .arrow ih known (fun hs => sound (h hs)) text
  | destroy _ known nonroot ih => exact .destroy ih known nonroot

theorem Drawn.introduced_of_destroyed (drawn : Drawn strict ls) {i : ℤ} (h : .destroy i ∈ ls) :
    Introduced ls i := by
  induction drawn with
  | header => simp [headerLines] at h
  | create _ _ _ ih => exact introduced_append.mpr (Or.inl (ih (by simpa [createLines] using h)))
  | arrow _ _ _ _ ih => exact introduced_append.mpr (Or.inl (ih (by simpa using h)))
  | @destroy ls _ j known _ ih =>
    have hcases : .destroy i ∈ ls ∨ i = j := by simpa [destroyLines] using h
    rcases hcases with hbefore | rfl
    · exact introduced_append.mpr (Or.inl (ih hbefore))
    · exact introduced_append.mpr (Or.inl known.1)

theorem Drawn.root_alive (drawn : Drawn strict ls) : Alive ls 0 := by
  induction drawn with
  | header => simp [Alive, headerLines]
  | create _ _ _ ih => exact alive_createLines.mpr ⟨Or.inl ih.1, ih.2⟩
  | arrow _ _ _ _ ih => exact alive_arrow.mpr ih
  | destroy _ _ nonroot ih => exact alive_destroyLines.mpr ⟨ih, nonroot.symm⟩

theorem eachAfter_headerLines {R : List Line → Line → Prop} (title : R [] .title)
    (root : R [.title] (.create 0 "root".toList))
    (autonumber : R [.title, .create 0 "root".toList] .autonumber) : EachAfter R headerLines := by
  have hsplit : headerLines = [.title] ++ [.create 0 "root".toList, .autonumber] := rfl
  rw [hsplit, eachAfter_pair_iff, ← List.nil_append [Line.title], eachAfter_concat_iff]
  exact ⟨⟨eachAfter_nil R, title⟩, root, autonumber⟩

theorem Drawn.create_once (drawn : Drawn strict ls) (i : ℤ) :
    EachAfter (fun before l => l.creates i → ¬ Introduced before i) ls := by
  induction drawn with
  | header => exact eachAfter_headerLines (by simp) (by simp) (by simp)
  | @create ls _ j fresh name ih =>
    refine eachAfter_pair_iff.mpr ⟨ih, ?_, by simp⟩
    intro h
    rw [creates_create.mp h]
    exact fresh
  | arrow _ _ _ _ ih => exact eachAfter_concat_iff.mpr ⟨ih, by simp⟩
  | destroy _ _ _ ih => exact eachAfter_pair_iff.mpr ⟨ih, by simp, by simp⟩

theorem Drawn.countP_le_one (drawn : Drawn strict ls) (i : ℤ) : ls.countP (·.creates i) ≤ 1 := by
  apply Lib.countP_le_one
  intro before l after hls hcreates l' hl' hcreates'
  exact drawn.create_once i before l after hls hcreates ⟨l', hl', hcreates'⟩

theorem Drawn.countP_eq_one (drawn : Drawn strict ls) {i : ℤ} (h : Introduced ls i) :
    ls.countP (·.creates i) = 1 := by
  have hle := drawn.countP_le_one i
  have hpos : 0 < ls.countP (·.creates i) := List.countP_pos_iff.mpr h
  omega

theorem Drawn.within (drawn : Drawn True ls) :
    EachAfter (fun before l => ∀ i ∈ l.numbers, (l.creates i ∨ Introduced before i) ∧
      (.destroy i ∈ before → Farewell before l i)) ls := by
  induction drawn with
  | header =>
    exact eachAfter_headerLines (by simp [Line.numbers]) (by simp [Line.numbers])
      (by simp [Line.numbers])
  | @create ls drawn j fresh name ih =>
    have hnew : .destroy j ∉ ls := fun h => fresh (drawn.introduced_of_destroyed h)
    have hroot := drawn.root_alive
    refine eachAfter_pair_iff.mpr ⟨ih, ?_, ?_⟩
    · intro i hi
      obtain rfl : i = j := by simpa [Line.numbers] using hi
      exact ⟨Or.inl (by simp), fun h => absurd h hnew⟩
    · intro i hi
      have hcases : i = 0 ∨ i = j := by simpa [Line.numbers] using hi
      rcases hcases with rfl | rfl
      · exact ⟨Or.inr (by simp [hroot.1]), fun h => absurd (by simpa using h) hroot.2⟩
      · exact ⟨Or.inr (by simp), fun h => absurd (by simpa using h) hnew⟩
  | @arrow ls drawn source target known sound text ih =>
    refine eachAfter_concat_iff.mpr ⟨ih, ?_⟩
    intro i hi
    have hcases : i = source ∨ i = target := by simpa [Line.numbers] using hi
    rcases hcases with rfl | rfl
    · exact ⟨Or.inr known.1, fun h => absurd h known.2⟩
    · exact ⟨Or.inr (sound trivial).1, fun h => absurd h (sound trivial).2⟩
  | @destroy ls drawn j known nonroot ih =>
    have hroot := drawn.root_alive
    refine eachAfter_pair_iff.mpr ⟨ih, ?_, ?_⟩
    · intro i hi
      obtain rfl : i = j := by simpa [Line.numbers] using hi
      exact ⟨Or.inr known.1, fun h => absurd h known.2⟩
    · intro i hi
      have hcases : i = j ∨ i = 0 := by simpa [Line.numbers] using hi
      rcases hcases with rfl | rfl
      · exact ⟨Or.inr (by simp [known.1]), fun _ => ⟨by simp, rfl⟩⟩
      · refine ⟨Or.inr (by simp [hroot.1]), fun h => ?_⟩
        have hdestroyed : .destroy 0 ∈ ls ∨ j = 0 := by simpa [eq_comm] using h
        rcases hdestroyed with hdestroyed | hzero
        · exact absurd hdestroyed hroot.2
        · exact absurd hzero nonroot

theorem Drawn.introduced_of_numbers (drawn : Drawn True ls) {l : Line} (hl : l ∈ ls) {i : ℤ}
    (hi : i ∈ l.numbers) : Introduced ls i := by
  obtain ⟨before, after, rfl⟩ := List.append_of_mem hl
  rcases (drawn.within before l after rfl i hi).1 with hcreates | hbefore
  · exact ⟨l, by simp, hcreates⟩
  · exact introduced_append.mpr (Or.inl hbefore)

/-- Strict drawings keep lifetimes, and so does the blank rest behind the last line break. -/
theorem Drawn.lifetimes (drawn : Drawn True ls) : Lifetimes (ls ++ [.blank]) where
  once l hl i hi := by
    rcases List.mem_append.mp hl with hl | hl
    · rw [List.countP_append, drawn.countP_eq_one (drawn.introduced_of_numbers hl hi)]
      rfl
    · rw [List.mem_singleton.mp hl] at hi
      exact absurd hi List.not_mem_nil
  within := eachAfter_concat_iff.mpr ⟨drawn.within, fun _ hi => absurd hi List.not_mem_nil⟩
  arrows := by
    refine eachAfter_concat_iff.mpr ⟨?_, by simp⟩
    rintro before l after hls dashed source target text rfl i hi
    obtain ⟨hcreated, hfarewell⟩ := drawn.within before _ after hls i hi
    have hbefore : Introduced before i := hcreated.resolve_left creates_arrow
    by_cases hdestroyed : .destroy i ∈ before
    · exact Or.inr (Or.inr (hfarewell hdestroyed))
    · exact Or.inr (Or.inl ⟨hbefore, hdestroyed⟩)

end Drawings

section Texts

theorem toString_string (s : String) : toString s = s := rfl

theorem number_zero : Line.number 0 = ['I', '0'] := rfl

theorem new_toList : Canvas.new.contents.toList = textOf (headerLines.map Line.write) := by
  rfl

theorem append_toList (data : Data) (s : String) :
    (Canvas.append data s).contents.toList = data.contents.toList ++ s.toList :=
  String.toList_append

theorem createText_toList (i : ℤ) (name : String) :
    s!"    create participant I{i} as {name}\n    I0-->>I{i}: create\n".toList =
      textOf ((createLines i name.toList).map Line.write) := by
  have hnumber : Line.number i = 'I' :: (toString i).toList := rfl
  simp [createLines, Line.write_create, Line.write_arrow, Line.stroke, toString_string, number_zero,
    hnumber]

theorem arrowText_toList (i rhs : ℤ) (text : String) :
    s!"    I{i}->>I{rhs}: {text}\n".toList =
      textOf ([.arrow false i rhs text.toList].map Line.write) := by
  simp [Line.write_arrow, Line.stroke, Line.number, toString_string]

theorem destroyText_toList (i : ℤ) :
    s!"    destroy I{i}\n    I{i}-->>I0: destroy\n".toList =
      textOf ((destroyLines i).map Line.write) := by
  have hnumber : Line.number i = 'I' :: (toString i).toList := rfl
  simp [destroyLines, Line.write_destroy, Line.write_arrow, Line.stroke, toString_string,
    number_zero, hnumber]

def Unbroken (ls : List Line) : Prop := ∀ l ∈ ls, '\n' ∉ l.label

theorem Unbroken.append {ls ms : List Line} (hls : Unbroken ls) (hms : Unbroken ms) :
    Unbroken (ls ++ ms) := fun l hl => (List.mem_append.mp hl).elim (hls l) (hms l)

theorem unbroken_headerLines : Unbroken headerLines := by
  unfold Unbroken headerLines
  decide

theorem unbroken_createLines (i : ℤ) {name : List Char} (h : '\n' ∉ name) :
    Unbroken (createLines i name) := by
  simp [Unbroken, createLines, Line.label, h]

theorem unbroken_arrow (i rhs : ℤ) {text : List Char} (h : '\n' ∉ text) :
    Unbroken [.arrow false i rhs text] := by
  simp [Unbroken, Line.label, h]

theorem unbroken_destroyLines (i : ℤ) : Unbroken (destroyLines i) := by
  simp [Unbroken, destroyLines, Line.label]

end Texts

section Canvases

/-- What is known of a canvas on which the numbers `made` were given out, those of the participants
that are still alive being `live`: its text consists of the lines `ls`. -/
structure Kept (strict : Prop) (made live : ℤ → Prop) (data : Data) (ls : List Line) : Prop where
  text : data.contents.toList = textOf (ls.map Line.write)
  unbroken : Unbroken ls
  drawn : Drawn strict ls
  introduced : ∀ i, Introduced ls i ↔ i = 0 ∨ made i
  alive : ∀ i, i ≠ 0 → (Alive ls i ↔ live i)
  next : 0 ≤ data.i
  range : ∀ i, made i → 1 ≤ i ∧ i ≤ data.i

variable {strict : Prop} {made live : ℤ → Prop} {data : Data} {ls : List Line}

theorem Kept.mono {strict' : Prop} {made' live' : ℤ → Prop} (k : Kept strict made live data ls)
    (weaker : strict' → strict) (hmade : ∀ i, made' i ↔ made i) (hlive : ∀ i, live' i ↔ live i) :
    Kept strict' made' live' data ls where
  text := k.text
  unbroken := k.unbroken
  drawn := k.drawn.mono weaker
  introduced i := by rw [k.introduced, hmade]
  alive i hi := by rw [k.alive i hi, hlive]
  next := k.next
  range i hi := k.range i ((hmade i).mp hi)

theorem kept_new (strict : Prop) : Kept strict (fun _ => False) (fun _ => False) Canvas.new
    headerLines where
  text := new_toList
  unbroken := unbroken_headerLines
  drawn := .header
  introduced i := by simp [headerLines]
  alive i hi := by simp [Alive, headerLines, hi]
  next := Int.le_refl 0
  range _ h := h.elim

theorem Kept.create (k : Kept strict made live data ls) {i : ℤ} (hi : i = data.i + 1)
    {name : String} (h : '\n' ∉ name.toList) :
    Kept strict (fun j => made j ∨ j = i) (fun j => live j ∨ j = i)
      (Canvas.append { data with i := i }
        s!"    create participant I{i} as {name}\n    I0-->>I{i}: create\n")
      (ls ++ createLines i name.toList) := by
  have hnext := k.next
  have hzero : i ≠ 0 := by omega
  have fresh : ¬ Introduced ls i := by
    intro hintroduced
    have hmade := ((k.introduced i).mp hintroduced).resolve_left hzero
    have hrange := k.range i hmade
    omega
  have hkept : .destroy i ∉ ls := fun hdestroy => fresh (k.drawn.introduced_of_destroyed hdestroy)
  refine ⟨?_, k.unbroken.append (unbroken_createLines i h), k.drawn.create fresh _, fun j => ?_,
    fun j hj => ?_, ?_, fun j hj => ?_⟩
  · rw [append_toList, createText_toList, List.map_append, textOf_append, k.text]
  · simp [createLines, k.introduced, or_assoc]
  · rw [alive_createLines, ← k.alive j hj, Alive]
    constructor
    · rintro ⟨hintroduced | rfl, hdestroy⟩
      · exact Or.inl ⟨hintroduced, hdestroy⟩
      · exact Or.inr rfl
    · rintro (⟨hintroduced, hdestroy⟩ | rfl)
      · exact ⟨Or.inl hintroduced, hdestroy⟩
      · exact ⟨Or.inr rfl, hkept⟩
  · change 0 ≤ i
    omega
  · change 1 ≤ j ∧ j ≤ i
    rcases hj with hmade | rfl
    · have hrange := k.range j hmade
      omega
    · omega

theorem Kept.arrow (k : Kept strict made live data ls) {i rhs : ℤ} (hi : i ≠ 0) (known : live i)
    (hrhs : rhs ≠ 0) (sound : strict → live rhs) {text : String} (h : '\n' ∉ text.toList) :
    Kept strict made live (Canvas.addArrow data i rhs text)
      (ls ++ [.arrow false i rhs text.toList]) where
  text := by
    rw [Canvas.addArrow, append_toList, arrowText_toList, List.map_append, textOf_append, k.text]
  unbroken := k.unbroken.append (unbroken_arrow i rhs h)
  drawn := k.drawn.arrow ((k.alive i hi).mpr known) (fun hs => (k.alive rhs hrhs).mpr (sound hs)) _
  introduced j := by simp [k.introduced]
  alive j hj := by rw [alive_arrow, k.alive j hj]
  next := k.next
  range := k.range

theorem Kept.destroy (k : Kept strict made live data ls) {i : ℤ} (hi : i ≠ 0) (known : live i) :
    Kept strict made (fun j => live j ∧ j ≠ i) (Canvas.dropParticipant data i)
      (ls ++ destroyLines i) where
  text := by
    rw [Canvas.dropParticipant, append_toList, destroyText_toList, List.map_append, textOf_append,
      k.text]
  unbroken := k.unbroken.append (unbroken_destroyLines i)
  drawn := k.drawn.destroy ((k.alive i hi).mpr known) hi
  introduced j := by simp [destroyLines, k.introduced]
  alive j hj := by rw [alive_destroyLines, k.alive j hj]
  next := k.next
  range := k.range

end Canvases

section Invariant

def State.Live (s : State) (c : ℕ) (i : ℤ) : Prop :=
  ∃ p self, s.alive p = some self ∧ self.canvas = c ∧ self.i = i

/-- What holds in every state that is reached, `created` being the participants created so far. -/
structure Inv (strict : Prop) (s : State) (created : List Created) : Prop where
  kept : ∀ (c : ℕ) (data : Data), s.canvases[c]? = some data →
    ∃ ls, Kept strict (fun i => ⟨c, i⟩ ∈ created) (s.Live c) data ls
  counted : ∀ (c : ℕ) (data : Data), s.canvases[c]? = some data → data.i ≤ created.length
  placed : ∀ e ∈ created, e.canvas < s.canvases.length
  made : ∀ p self, s.alive p = some self → ⟨self.canvas, self.i⟩ ∈ created
  once : ∀ p q self other, s.alive p = some self → s.alive q = some other →
    self.canvas = other.canvas → self.i = other.i → p = q

variable {strict strict' : Prop} {s t : State} {created : List Created}

theorem inv_initial (strict : Prop) : Inv strict State.initial [] where
  kept c data h := by simp [State.initial] at h
  counted c data h := by simp [State.initial] at h
  placed e he := absurd he List.not_mem_nil
  made p self h := by simp [State.alive, State.initial] at h
  once p q self other h := by simp [State.alive, State.initial] at h

theorem Inv.mono (inv : Inv strict s created) (weaker : strict' → strict) :
    Inv strict' s created where
  kept c data h := by
    obtain ⟨ls, k⟩ := inv.kept c data h
    exact ⟨ls, k.mono weaker (fun _ => Iff.rfl) fun _ => Iff.rfl⟩
  counted := inv.counted
  placed := inv.placed
  made := inv.made
  once := inv.once

theorem Inv.nonroot (inv : Inv strict s created) {p : ℕ} {self : Participant}
    (h : s.alive p = some self) : self.i ≠ 0 := by
  have hmade := inv.made p self h
  have hplaced := inv.placed _ hmade
  obtain ⟨ls, k⟩ := inv.kept self.canvas _ (List.getElem?_eq_getElem hplaced)
  have hrange := k.range self.i hmade
  omega

theorem getElem?_set_cases {α : Type} {xs : List α} {c d : ℕ} {x y : α}
    (h : (xs.set c x)[d]? = some y) : (c = d ∧ x = y) ∨ (c ≠ d ∧ xs[d]? = some y) := by
  rw [List.getElem?_set] at h
  split_ifs at h with hcd hlt
  · exact Or.inl ⟨hcd, Option.some.inj h⟩
  · exact Or.inr ⟨hcd, h⟩

theorem Inv.counted_set (inv : Inv strict s created) {c n : ℕ} {data' : Data}
    (hn : created.length ≤ n) (hnew : data'.i ≤ n) (d : ℕ) (other : Data)
    (h : (s.canvases.set c data')[d]? = some other) : other.i ≤ n := by
  rcases getElem?_set_cases h with ⟨rfl, rfl⟩ | ⟨_, h⟩
  · exact hnew
  · have hcounted := inv.counted d other h
    omega

theorem Inv.placed_set (inv : Inv strict s created) (c : ℕ) (data' : Data) :
    ∀ e ∈ created, e.canvas < (s.canvases.set c data').length := by
  intro e he
  rw [List.length_set]
  exact inv.placed e he

theorem Inv.newCanvas (inv : Inv strict s created) :
    Inv strict { s with canvases := s.canvases ++ [Canvas.new] } created where
  kept c data h := by
    rw [List.getElem?_append] at h
    split_ifs at h with hc
    · exact inv.kept c data h
    · -- no participant is on the new canvas yet
      have hunplaced : ∀ i, ⟨c, i⟩ ∉ created := fun i hi => hc (inv.placed _ hi)
      obtain rfl : Canvas.new = data := by
        rw [List.getElem?_singleton] at h
        split_ifs at h
        exact Option.some.inj h
      refine ⟨headerLines, (kept_new strict).mono id (fun i => iff_false_intro (hunplaced i))
        fun i => iff_false_intro ?_⟩
      rintro ⟨p, self, hself, rfl, rfl⟩
      exact hunplaced _ (inv.made p self hself)
  counted c data h := by
    rw [List.getElem?_append] at h
    split_ifs at h with hc
    · exact inv.counted c data h
    · rw [List.getElem?_singleton] at h
      split_ifs at h
      rw [← Option.some.inj h]
      exact Int.natCast_nonneg _
  placed e he := by
    have hlt := inv.placed e he
    rw [List.length_append]
    omega
  made := inv.made
  once := inv.once

theorem alive_create {canvases : List Data} {self other : Participant} {p : ℕ} :
    State.alive ⟨canvases, s.participants ++ [some self]⟩ p = some other ↔
      s.alive p = some other ∨ p = s.participants.length ∧ other = self := by
  rw [State.alive, State.alive, List.getElem?_append]
  split_ifs with hp
  · have hne : p ≠ s.participants.length := Nat.ne_of_lt hp
    simp [hne]
  · have hnone : s.participants[p]? = none := List.getElem?_eq_none (Nat.le_of_not_lt hp)
    rw [hnone, List.getElem?_singleton]
    split_ifs with hzero
    · have heq : p = s.participants.length := by omega
      simp [heq, eq_comm]
    · have hne : p ≠ s.participants.length := by omega
      simp [hne]

theorem live_create {canvases : List Data} {self : Participant} {c : ℕ} {i : ℤ} :
    State.Live ⟨canvases, s.participants ++ [some self]⟩ c i ↔
      s.Live c i ∨ self.canvas = c ∧ self.i = i := by
  simp only [State.Live, alive_create]
  constructor
  · rintro ⟨p, other, hother | ⟨rfl, rfl⟩, hc, hi⟩
    · exact Or.inl ⟨p, other, hother, hc, hi⟩
    · exact Or.inr ⟨hc, hi⟩
  · rintro (⟨p, other, hother, hc, hi⟩ | ⟨hc, hi⟩)
    · exact ⟨p, other, Or.inl hother, hc, hi⟩
    · exact ⟨_, self, Or.inr ⟨rfl, rfl⟩, hc, hi⟩

theorem Inv.newParticipant (inv : Inv strict s created) {c : ℕ} {data : Data} {i : ℤ}
    {name : String} (hdata : s.canvases[c]? = some data) (hi : i = data.i + 1)
    (h : '\n' ∉ name.toList) :
    Inv strict ⟨s.canvases.set c (Canvas.append { data with i := i }
      s!"    create participant I{i} as {name}\n    I0-->>I{i}: create\n"),
      s.participants ++ [some ⟨c, i, name⟩]⟩ (created ++ [⟨c, i⟩]) := by
  obtain ⟨ls, k⟩ := inv.kept c data hdata
  have hc : c < s.canvases.length := (List.getElem?_eq_some_iff.mp hdata).1
  have hfresh : ∀ p self, s.alive p = some self → self.canvas = c → self.i ≠ i := by
    rintro p self hself rfl hself'
    have hrange := k.range self.i (inv.made p self hself)
    omega
  constructor
  case kept =>
    intro d other hother
    rcases getElem?_set_cases hother with ⟨rfl, rfl⟩ | ⟨hne, hother⟩
    · refine ⟨_, (k.create hi h).mono id (fun j => ?_) fun j => ?_⟩
      · simp
      · simp [live_create, eq_comm]
    · obtain ⟨ms, k'⟩ := inv.kept d other hother
      refine ⟨ms, k'.mono id (fun j => ?_) fun j => ?_⟩
      · simp [hne.symm]
      · simp [live_create, hne]
  case counted =>
    rw [List.length_append, List.length_singleton]
    have hcounted := inv.counted c data hdata
    refine inv.counted_set (Nat.le_succ _) ?_
    change i ≤ _
    omega
  case placed =>
    intro e he
    rcases List.mem_append.mp he with he | he
    · exact inv.placed_set c _ e he
    · rw [List.mem_singleton.mp he, List.length_set]
      exact hc
  case made =>
    intro p self hself
    rcases alive_create.mp hself with hself | ⟨rfl, rfl⟩
    · exact List.mem_append_left _ (inv.made p self hself)
    · exact List.mem_append_right _ List.mem_cons_self
  case once =>
    intro p q self other hself hother hcanvas hnumber
    rcases alive_create.mp hself with hself | ⟨rfl, rfl⟩
    · rcases alive_create.mp hother with hother | ⟨rfl, rfl⟩
      · exact inv.once p q self other hself hother hcanvas hnumber
      · exact absurd hnumber (hfresh p self hself hcanvas)
    · rcases alive_create.mp hother with hother | ⟨rfl, rfl⟩
      · exact absurd hnumber.symm (hfresh q other hother hcanvas.symm)
      · rfl

theorem Inv.addArrowTo (inv : Inv strict s created) {p q : ℕ} {self rhs : Participant}
    {data : Data} {text : String} (hself : s.alive p = some self) (hrhs : s.alive q = some rhs)
    (hdata : s.canvases[self.canvas]? = some data) (sound : strict → s.Live self.canvas rhs.i)
    (h : '\n' ∉ text.toList) :
    Inv strict { s with
      canvases := s.canvases.set self.canvas (Canvas.addArrow data self.i rhs.i text) }
      created := by
  obtain ⟨ls, k⟩ := inv.kept self.canvas data hdata
  constructor
  case kept =>
    intro d other hother
    rcases getElem?_set_cases hother with ⟨rfl, rfl⟩ | ⟨_, hother⟩
    · exact ⟨_, k.arrow (inv.nonroot hself) ⟨p, self, hself, rfl, rfl⟩ (inv.nonroot hrhs) sound h⟩
    · exact inv.kept d other hother
  case counted => exact inv.counted_set (Nat.le_refl _) (inv.counted self.canvas data hdata)
  case placed => exact inv.placed_set _ _
  case made => exact inv.made
  case once => exact inv.once

theorem alive_drop {canvases : List Data} {p q : ℕ} {other : Participant} :
    State.alive ⟨canvases, s.participants.set p none⟩ q = some other ↔
      s.alive q = some other ∧ q ≠ p := by
  rw [State.alive, State.alive, List.getElem?_set]
  split_ifs with hpq hlt
  · simp [hpq]
  · simp [hpq]
  · simp [Ne.symm hpq]

theorem Inv.live_drop (inv : Inv strict s created) {canvases : List Data} {p : ℕ}
    {self : Participant} (hself : s.alive p = some self) {c : ℕ} {i : ℤ} :
    State.Live ⟨canvases, s.participants.set p none⟩ c i ↔
      s.Live c i ∧ (self.canvas = c → i ≠ self.i) := by
  simp only [State.Live, alive_drop]
  constructor
  · rintro ⟨q, other, ⟨hother, hne⟩, rfl, rfl⟩
    refine ⟨⟨q, other, hother, rfl, rfl⟩, fun hcanvas hnumber => ?_⟩
    exact hne (inv.once q p other self hother hself hcanvas.symm hnumber)
  · rintro ⟨⟨q, other, hother, rfl, rfl⟩, hother'⟩
    refine ⟨q, other, ⟨hother, ?_⟩, rfl, rfl⟩
    rintro rfl
    obtain rfl := Option.some.inj (hself.symm.trans hother)
    exact hother' rfl rfl

theorem Inv.drop (inv : Inv strict s created) {p : ℕ} {self : Participant} {data : Data}
    (hself : s.alive p = some self) (hdata : s.canvases[self.canvas]? = some data) :
    Inv strict ⟨s.canvases.set self.canvas (Canvas.dropParticipant data self.i),
      s.participants.set p none⟩ created := by
  obtain ⟨ls, k⟩ := inv.kept self.canvas data hdata
  constructor
  case kept =>
    intro d other hother
    rcases getElem?_set_cases hother with ⟨rfl, rfl⟩ | ⟨hne, hother⟩
    · have k' := k.destroy (inv.nonroot hself) ⟨p, self, hself, rfl, rfl⟩
      refine ⟨_, k'.mono id (fun _ => Iff.rfl) fun j => ?_⟩
      simp [inv.live_drop hself]
    · obtain ⟨ms, k'⟩ := inv.kept d other hother
      refine ⟨ms, k'.mono id (fun _ => Iff.rfl) fun j => ?_⟩
      simp [inv.live_drop hself, hne]
  case counted => exact inv.counted_set (Nat.le_refl _) (inv.counted self.canvas data hdata)
  case placed => exact inv.placed_set _ _
  case made => exact fun q other hother => inv.made q other (alive_drop.mp hother).1
  case once =>
    intro q r other third hother hthird
    exact inv.once q r other third (alive_drop.mp hother).1 (alive_drop.mp hthird).1

end Invariant

end RustExperiments.Mermaid
