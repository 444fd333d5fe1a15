/- module: RustExperiments/Lib/Variants
   digest: Sums read by trying their variants in order, and lists read item by item. -/

import Mathlib.Data.List.Forall2

set_option autoImplicit false
set_option relaxedAutoImplicit false

namespace RustExperiments.Lib

section Variants

variable {α β : Type}

/-- The first variant that the content can be read as. -/
def firstVariant (variants : List (α → Option β)) (content : α) : Option β :=
  variants.findSome? fun variant => variant content

theorem firstVariant_cons (variant : α → Option β) (variants : List (α → Option β)) (content : α) :
    firstVariant (variant :: variants) content =
      (variant content).or (firstVariant variants content) := by
  rw [firstVariant, List.findSome?_cons]
  cases variant content with
  | none => rfl
  | some b => rfl

theorem firstVariant_of_some {variant : α → Option β} {variants : List (α → Option β)} {content : α}
    {b : β} (h : variant content = some b) : firstVariant (variant :: variants) content = some b := by
  rw [firstVariant_cons, h, Option.some_or]

theorem firstVariant_eq_none_iff {variants : List (α → Option β)} {content : α} :
    firstVariant variants content = none ↔ ∀ variant ∈ variants, variant content = none :=
  List.findSome?_eq_none_iff

theorem firstVariant_mem {variants : List (α → Option β)} {content : α} {b : β}
    (h : firstVariant variants content = some b) : ∃ variant ∈ variants, variant content = some b :=
  List.exists_of_findSome?_eq_some h

end Variants

section Items

variable {α β γ : Type}

theorem mapM_cons_eq (f : α → Option β) (x : α) (xs : List α) :
    (x :: xs).mapM f = (f x).bind fun y => (xs.mapM f).map (y :: ·) := by
  rw [List.mapM_cons]
  cases f x with
  | none => rfl
  | some y => cases xs.mapM f <;> rfl

theorem mapM_eq_some_iff (f : α → Option β) {xs : List α} {ys : List β} :
    xs.mapM f = some ys ↔ List.Forall₂ (fun x y => f x = some y) xs ys := by
  induction xs generalizing ys with
  | nil =>
    rw [List.forall₂_nil_left_iff, List.mapM_nil]
    exact ⟨fun h => (Option.some.inj h).symm, fun h => congrArg some h.symm⟩
  | cons x xs ih =>
    rw [mapM_cons_eq, List.forall₂_cons_left_iff]
    constructor
    · intro h
      obtain ⟨y, hy, hrest⟩ := Option.bind_eq_some_iff.mp h
      obtain ⟨rest, hread, rfl⟩ := Option.map_eq_some_iff.mp hrest
      exact ⟨y, rest, hy, ih.mp hread, rfl⟩
    · rintro ⟨y, rest, hy, hread, rfl⟩
      rw [hy, ih.mpr hread]
      rfl

theorem mapM_isSome_iff (f : α → Option β) (xs : List α) :
    (xs.mapM f).isSome ↔ ∀ x ∈ xs, (f x).isSome := by
  induction xs with
  | nil => simp
  | cons x xs ih =>
    rw [mapM_cons_eq, List.forall_mem_cons, ← ih]
    cases f x with
    | none => simp
    | some y => simp

theorem forall₂_mapM_iff {f : α → Option β} {R : α → β → Prop} {P : α → Prop}
    (hR : ∀ x y, f x = some y → (R x y ↔ P x)) {xs : List α} {ys : List β}
    (h : xs.mapM f = some ys) : List.Forall₂ R xs ys ↔ ∀ x ∈ xs, P x := by
  have hread := (mapM_eq_some_iff f).mp h
  clear h
  induction hread with
  | nil => simp
  | cons hx _ ih =>
    rw [List.forall₂_cons, List.forall_mem_cons]
    exact and_congr (hR _ _ hx) ih

theorem mem_mapM {f : α → Option β} {xs : List α} {ys : List β} (h : xs.mapM f = some ys) (y : β) :
    y ∈ ys ↔ ∃ x ∈ xs, f x = some y := by
  have hread := (mapM_eq_some_iff f).mp h
  clear h
  induction hread with
  | nil => simp
  | cons hx _ ih => simp [ih, hx, eq_comm]

theorem mapM_bind_mapM (f : α → Option β) (g : β → Option γ) (xs : List α) :
    (xs.mapM f).bind (fun ys => ys.mapM g) = xs.mapM fun x => (f x).bind g := by
  induction xs with
  | nil => rfl
  | cons x xs ih =>
    rw [mapM_cons_eq, mapM_cons_eq, ← ih]
    cases f x with
    | none => rfl
    | some y =>
      cases xs.mapM f with
      | none => simp
      | some ys =>
        rw [Option.bind_some, Option.map_some, Option.bind_some, mapM_cons_eq, Option.bind_some,
          Option.bind_some]

end Items

end RustExperiments.Lib
