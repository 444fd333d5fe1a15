/- module: RustExperiments/Mermaid/Runs
   digest: Diagrams of a run keep lifetimes exactly when each arrow stays on its canvas. -/

import RustExperiments.Mermaid.Lifetimes

set_option autoImplicit false
set_option relaxedAutoImplicit false

namespace RustExperiments.Mermaid

open RustExperiments.Lib

def Input.Unbroken : Input → Prop
  | .newParticipant _ name => '\n' ∉ name.toList
  | .addArrowTo _ _ text => '\n' ∉ text.toList
  | _ => True

instance : DecidablePred Input.Unbroken
  | .newCanvas => isTrue trivial
  | .newParticipant _ name => inferInstanceAs (Decidable ('\n' ∉ name.toList))
  | .addArrowTo _ _ text => inferInstanceAs (Decidable ('\n' ∉ text.toList))
  | .drop _ => isTrue trivial

/-- The number of the second participant is that of a live one on the canvas of the first. -/
def OnCanvas (s : State) (p q : ℕ) : Prop :=
  ∀ self rhs, s.alive p = some self → s.alive q = some rhs → s.Live self.canvas rhs.i

theorem onCanvas_of_same {s : State} {p q : ℕ}
    (same : ∀ self rhs, s.alive p = some self → s.alive q = some rhs → self.canvas = rhs.canvas) :
    OnCanvas s p q :=
  fun self rhs hself hrhs => ⟨q, rhs, hrhs, (same self rhs hself hrhs).symm, rfl⟩

/-- Each arrow of the run is drawn to a participant that its canvas knows at that moment. -/
def ArrowsOnCanvas (checks : Bool) (is : List Input) : Prop :=
  EachAfter (fun before i => ∀ p q text, i = .addArrowTo p q text → ∀ s created,
    (machine checks).run .initial before = some (s, created) → OnCanvas s p q) is

section Invariant

variable {checks : Bool} {strict : Prop} {s t : State} {created o : List Created}

theorem eq_of_i32Fit {v i : ℤ} (h : i32Fit checks v = some i) (low : 0 ≤ v) (high : v < 2 ^ 31) :
    i = v := by
  rw [i32Fit, if_pos ⟨by omega, high⟩] at h
  exact (Option.some.inj h).symm

/-- Every call keeps the invariant, an arrow in a strict drawing when it stays on its canvas. -/
theorem inv_step {i : Input} (inv : Inv strict s created) (h : step checks s i = some (t, o))
    (unbroken : i.Unbroken) (few : created.length < 2 ^ 31 - 1)
    (sound : strict → ∀ p q text, i = .addArrowTo p q text → OnCanvas s p q) :
    Inv strict t (created ++ o) := by
  cases i with
  | newCanvas =>
    cases h
    rw [List.append_nil]
    exact inv.newCanvas
  | newParticipant c name =>
    obtain ⟨data, i, hdata, hfit, rfl, rfl⟩ := step_newParticipant h
    obtain ⟨ls, k⟩ := inv.kept c data hdata
    have hcounted := inv.counted c data hdata
    have hnext := k.next
    have hexact := eq_of_i32Fit hfit (by omega) (by omega)
    exact inv.newParticipant hdata hexact unbroken
  | addArrowTo p q text =>
    obtain ⟨self, rhs, data, hself, hrhs, hdata, rfl, rfl⟩ := step_addArrowTo h
    rw [List.append_nil]
    exact inv.addArrowTo hself hrhs hdata (fun hs => sound hs p q text rfl self rhs hself hrhs)
      unbroken
  | drop p =>
    obtain ⟨self, data, hself, hdata, rfl, rfl⟩ := step_drop h
    rw [List.append_nil]
    exact inv.drop hself hdata

theorem inv_run {is : List Input} (run : (machine checks).run .initial is = some (s, created))
    (unbroken : ∀ i ∈ is, i.Unbroken) (few : created.length < 2 ^ 31 - 1) :
    Inv (ArrowsOnCanvas checks is) s created := by
  refine (machine checks).run_invariant
    (fun is created s => (∀ i ∈ is, i.Unbroken) → created.length < 2 ^ 31 - 1 →
      Inv (ArrowsOnCanvas checks is) s created) (fun _ _ => inv_initial _) ?_ run unbroken few
  intro is created s i t o hrun ih hstep hunbroken hfew
  rw [List.length_append] at hfew
  have inv := ih (fun j hj => hunbroken j (List.mem_append_left _ hj)) (by omega)
  refine inv_step (inv.mono fun h => (eachAfter_concat_iff.mp h).1) hstep
    (hunbroken i (by simp)) (by omega) ?_
  intro h p q text hi
  exact (eachAfter_concat_iff.mp h).2 p q text hi s created hrun

end Invariant

section Extension

variable {checks : Bool} {s t : State} {o : List Created}

def Extends (data data' : Data) : Prop :=
  ∃ ls, Unbroken ls ∧
    data'.contents.toList = data.contents.toList ++ textOf (ls.map Line.write)

theorem Extends.refl (data : Data) : Extends data data :=
  ⟨[], by simp [Unbroken], by simp⟩

theorem Extends.trans {d d' d'' : Data} (h : Extends d d') (h' : Extends d' d'') :
    Extends d d'' := by
  obtain ⟨ls, hls, htext⟩ := h
  obtain ⟨ms, hms, htext'⟩ := h'
  refine ⟨ls ++ ms, hls.append hms, ?_⟩
  rw [htext', htext, List.append_assoc, List.map_append, textOf_append]

theorem exists_getElem?_set {canvases : List Data} {c d : ℕ} {data data' x : Data}
    (hc : canvases[c]? = some data) (h : Extends data data') (hd : canvases[d]? = some x) :
    ∃ y, (canvases.set c data')[d]? = some y ∧ Extends x y := by
  have hlt : c < canvases.length := (List.getElem?_eq_some_iff.mp hc).1
  by_cases hcd : c = d
  · subst hcd
    obtain rfl := Option.some.inj (hc.symm.trans hd)
    exact ⟨data', List.getElem?_set_self hlt, h⟩
  · exact ⟨x, by rw [List.getElem?_set_ne hcd, hd], .refl x⟩

theorem step_extends {i : Input} (h : step checks s i = some (t, o)) (unbroken : i.Unbroken)
    {c : ℕ} {data : Data} (hdata : s.canvases[c]? = some data) :
    ∃ data', t.canvases[c]? = some data' ∧ Extends data data' := by
  cases i with
  | newCanvas =>
    cases h
    exact ⟨data, by rw [List.getElem?_append_left (List.getElem?_eq_some_iff.mp hdata).1, hdata],
      .refl data⟩
  | newParticipant d name =>
    obtain ⟨data', i, hdata', _, rfl, _⟩ := step_newParticipant h
    refine exists_getElem?_set hdata' ⟨_, unbroken_createLines i unbroken, ?_⟩ hdata
    rw [append_toList, createText_toList]
  | addArrowTo p q text =>
    obtain ⟨self, rhs, data', _, _, hdata', rfl, _⟩ := step_addArrowTo h
    refine exists_getElem?_set hdata' ⟨_, unbroken_arrow self.i rhs.i unbroken, ?_⟩ hdata
    rw [Canvas.addArrow, append_toList, arrowText_toList]
  | drop p =>
    obtain ⟨self, data', _, hdata', rfl, _⟩ := step_drop h
    refine exists_getElem?_set hdata' ⟨_, unbroken_destroyLines self.i, ?_⟩ hdata
    rw [Canvas.dropParticipant, append_toList, destroyText_toList]

theorem run_extends {is : List Input} (run : (machine checks).run s is = some (t, o))
    (unbroken : ∀ i ∈ is, i.Unbroken) {c : ℕ} {data : Data} (hdata : s.canvases[c]? = some data) :
    ∃ data', t.canvases[c]? = some data' ∧ Extends data data' := by
  induction is generalizing s o data with
  | nil =>
    cases run
    exact ⟨data, hdata, .refl data⟩
  | cons i is ih =>
    obtain ⟨mid, o₁, o₂, hstep, hrun, _⟩ := (Machine.run_cons_iff _).mp run
    obtain ⟨data', hdata', hextends⟩ :=
      step_extends hstep (unbroken i List.mem_cons_self) hdata
    obtain ⟨data'', hdata'', hextends'⟩ :=
      ih hrun (fun j hj => unbroken j (List.mem_cons_of_mem i hj)) hdata'
    exact ⟨data'', hdata'', hextends.trans hextends'⟩

end Extension

section Lifetimes

/-- The text of each canvas keeps lifetimes, with one create line for each participant. -/
def KeepsLifetimes (s : State) (created : List Created) : Prop :=
  ∀ (c : ℕ) (data : Data), s.canvases[c]? = some data →
    ∃ ls, readDiagram data.contents.toList = some ls ∧ Lifetimes ls ∧
      ∀ i, ⟨c, i⟩ ∈ created → ls.countP (·.creates i) = 1

variable {checks : Bool} {is : List Input} {s : State} {created : List Created}

theorem keepsLifetimes_of_arrows
    (run : (machine checks).run .initial is = some (s, created))
    (unbroken : ∀ i ∈ is, i.Unbroken) (few : created.length < 2 ^ 31 - 1)
    (arrows : ArrowsOnCanvas checks is) : KeepsLifetimes s created := by
  intro c data hdata
  obtain ⟨ls, k⟩ := (inv_run run unbroken few).kept c data hdata
  have drawn : Drawn True ls := k.drawn.mono fun _ => arrows
  refine ⟨ls ++ [.blank], ?_, drawn.lifetimes, fun i hi => ?_⟩
  · rw [k.text, readDiagram_textOf k.unbroken]
  · rw [List.countP_append, drawn.countP_eq_one ((k.introduced i).mpr (Or.inr hi))]
    rfl

theorem inv_before {before after : List Input} {mid : State} {made : List Created}
    (run : (machine checks).run .initial (before ++ after) = some (s, created))
    (unbroken : ∀ i ∈ before ++ after, i.Unbroken) (few : created.length < 2 ^ 31 - 1)
    (hbefore : (machine checks).run .initial before = some (mid, made)) :
    ∃ o, Inv (ArrowsOnCanvas checks before) mid made ∧
      (machine checks).run mid after = some (s, o) := by
  obtain ⟨mid', o₁, o₂, hleft, hright, rfl⟩ := (Machine.run_append_iff _).mp run
  obtain ⟨rfl, rfl⟩ := Prod.mk.inj (Option.some.inj (hbefore.symm.trans hleft))
  rw [List.length_append] at few
  exact ⟨o₂, inv_run hbefore (fun i hi => unbroken i (List.mem_append_left _ hi)) (by omega),
    hright⟩

/-- An arrow that leaves its canvas stays in the text for good. -/
theorem arrows_of_keepsLifetimes
    (run : (machine checks).run .initial is = some (s, created))
    (unbroken : ∀ i ∈ is, i.Unbroken) (few : created.length < 2 ^ 31 - 1)
    (keeps : KeepsLifetimes s created) : ArrowsOnCanvas checks is := by
  rintro before _ after rfl p q text rfl mid made hbefore self rhs hself hrhs
  obtain ⟨o, inv, hright⟩ := inv_before run unbroken few hbefore
  obtain ⟨t, o₃, o₄, hstep, hrest, rfl⟩ := (Machine.run_cons_iff _).mp hright
  have hbreak : '\n' ∉ text.toList := unbroken (.addArrowTo p q text) (by simp)
  have hcall : step checks mid (.addArrowTo p q text) = some (t, o₃) := hstep
  obtain ⟨self', rhs', data, hself', hrhs', hdata, rfl, _⟩ := step_addArrowTo hcall
  obtain rfl := Option.some.inj (hself.symm.trans hself')
  obtain rfl := Option.some.inj (hrhs.symm.trans hrhs')
  obtain ⟨ls, k⟩ := inv.kept self.canvas data hdata
  -- the lines of the final text begin with those of this moment and the arrow
  have hlt := (List.getElem?_eq_some_iff.mp hdata).1
  obtain ⟨final, hfinal, more, hmore, htext⟩ := run_extends hrest
    (fun i hi => unbroken i (List.mem_append_right _ (List.mem_cons_of_mem _ hi)))
    (List.getElem?_set_self hlt)
  obtain ⟨ms, hread, hlifetimes, _⟩ := keeps self.canvas final hfinal
  have hlines : final.contents.toList =
      textOf ((ls ++ ([Line.arrow false self.i rhs.i text.toList] ++ more)).map Line.write) := by
    rw [htext, Canvas.addArrow, append_toList, arrowText_toList, k.text]
    simp only [List.map_append, textOf_append, List.append_assoc]
  have hunbroken := k.unbroken.append ((unbroken_arrow self.i rhs.i hbreak).append hmore)
  rw [hlines, readDiagram_textOf hunbroken] at hread
  obtain rfl := Option.some.inj hread
  have harrow := hlifetimes.arrows ls (.arrow false self.i rhs.i text.toList) (more ++ [.blank])
    (by simp) false self.i rhs.i text.toList rfl rhs.i (by simp)
  rcases harrow with hroot | halive | ⟨_, hfarewell⟩
  · exact absurd hroot (inv.nonroot hrhs)
  · exact (k.alive rhs.i (inv.nonroot hrhs)).mp halive
  · cases hfarewell

theorem arrows_of_single (run : (machine checks).run .initial is = some (s, created))
    (unbroken : ∀ i ∈ is, i.Unbroken) (few : created.length < 2 ^ 31 - 1)
    (single : s.canvases.length ≤ 1) : ArrowsOnCanvas checks is := by
  rintro before _ after rfl p q text rfl mid made hbefore
  obtain ⟨o, inv, hright⟩ := inv_before run unbroken few hbefore
  -- a canvas that was there stays there
  have hsingle : mid.canvases.length ≤ 1 := by
    by_contra hmore
    obtain ⟨data, hdata, _⟩ := run_extends hright
      (fun i hi => unbroken i (List.mem_append_right _ hi))
      (List.getElem?_eq_getElem (Nat.lt_of_not_le hmore))
    have hlt := (List.getElem?_eq_some_iff.mp hdata).1
    omega
  refine onCanvas_of_same fun self rhs hself hrhs => ?_
  have hplaced := inv.placed _ (inv.made p self hself)
  have hplaced' := inv.placed _ (inv.made q rhs hrhs)
  simp only at hplaced hplaced'
  omega

/-- The diagrams of a run keep lifetimes exactly when each arrow stays on its canvas. -/
theorem keepsLifetimes_iff (run : (machine checks).run .initial is = some (s, created))
    (unbroken : ∀ i ∈ is, i.Unbroken) (few : created.length < 2 ^ 31 - 1) :
    KeepsLifetimes s created ↔ ArrowsOnCanvas checks is :=
  ⟨arrows_of_keepsLifetimes run unbroken few, keepsLifetimes_of_arrows run unbroken few⟩

def mainInputs : List Input :=
  [.newCanvas, .newParticipant 0 "foo", .drop 0, .newParticipant 0 "bar", .newParticipant 0 "baz",
    .addArrowTo 1 2 "Hello!", .drop 2, .drop 1, .newParticipant 0 "meh", .newParticipant 0 "blah",
    .addArrowTo 4 3 "Whoa!", .drop 4, .drop 3]

theorem keepsLifetimes_main :
    ∃ s created, (machine true).run .initial mainInputs = some (s, created) ∧
      ArrowsOnCanvas true mainInputs ∧ KeepsLifetimes s created := by
  have arrows : ArrowsOnCanvas true mainInputs :=
    arrows_of_single rfl (by decide) (by decide) (by decide)
  exact ⟨_, _, rfl, arrows, (keepsLifetimes_iff rfl (by decide) (by decide)).mpr arrows⟩

def acrossInputs : List Input :=
  [.newCanvas, .newCanvas, .newParticipant 0 "foo", .newParticipant 1 "bar",
    .newParticipant 1 "baz", .addArrowTo 0 2 "Hello!"]

set_option maxRecDepth 10000 in
theorem across_breaks_lifetimes :
    ∃ s created data, (machine true).run .initial acrossInputs = some (s, created) ∧
      s.canvases[0]? = some data ∧
      readDiagram data.contents.toList = some [.title, .create 0 "root".toList, .autonumber,
        .create 1 "foo".toList, .arrow true 0 1 "create".toList, .arrow false 1 2 "Hello!".toList,
        .blank] ∧
      ¬ KeepsLifetimes s created := by
  refine ⟨_, _, _, rfl, rfl, rfl, fun keeps => ?_⟩
  have arrows : ArrowsOnCanvas true acrossInputs :=
    arrows_of_keepsLifetimes rfl (by decide) (by decide) keeps
  have hcanvas := arrows [.newCanvas, .newCanvas, .newParticipant 0 "foo",
    .newParticipant 1 "bar", .newParticipant 1 "baz"] (.addArrowTo 0 2 "Hello!") [] rfl 0 2
    "Hello!" rfl _ _ rfl
  obtain ⟨p, self, hself, hcanvas, hnumber⟩ := hcanvas _ _ rfl rfl
  match p with
  | 0 =>
    cases hself
    cases hnumber
  | 1 =>
    cases hself
    cases hcanvas
  | 2 =>
    cases hself
    cases hcanvas
  | p + 3 => cases hself

end Lifetimes

end RustExperiments.Mermaid
