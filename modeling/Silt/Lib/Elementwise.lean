import Mathlib.Data.List.Forall2

/-!
# Lists taken element by element

A run over a list that may give nothing for an element, and the entries of an association list.
-/

namespace Silt

variable {α β : Type} {f : α → Option β} {p : α → β → Prop} {xs : List α} {ys : List β}

theorem mapM_eq_some_iff : xs.mapM f = some ys ↔ List.Forall₂ (fun x y => f x = some y) xs ys := by
  induction xs generalizing ys with
  | nil => simp [eq_comm]
  | cons x xs ih =>
    constructor
    · intro h
      obtain ⟨y, hy, rest, hr, rfl⟩ : ∃ y, f x = some y ∧ ∃ rest, xs.mapM f = some rest ∧
          y :: rest = ys := by
        simpa [Option.bind_eq_some_iff] using h
      exact .cons hy (ih.mp hr)
    · rintro (_ | ⟨hy, hr⟩)
      simp [hy, ih.mpr hr]

theorem exists_forall₂ (h : ∀ x ∈ xs, ∃ y, p x y) : ∃ ys, List.Forall₂ p xs ys := by
  induction xs with
  | nil => exact ⟨[], .nil⟩
  | cons x xs ih =>
    obtain ⟨y, hy⟩ := h x (by simp)
    obtain ⟨ys, hys⟩ := ih fun z hz => h z (by simp [hz])
    exact ⟨y :: ys, .cons hy hys⟩

theorem exists_of_mem_forall₂ (h : List.Forall₂ p xs ys) {y : β} (hy : y ∈ ys) :
    ∃ x ∈ xs, p x y := by
  induction h with
  | nil => cases hy
  | cons hx _ ih => grind

theorem mem_of_lookup [BEq α] [LawfulBEq α] {entries : List (α × β)} {a : α} {b : β}
    (h : entries.lookup a = some b) : (a, b) ∈ entries := by
  obtain ⟨front, back, rfl, -⟩ := List.lookup_eq_some_iff.mp h
  simp

theorem exists_of_mem_zip_tail {a b : α} (h : (a, b) ∈ xs.zip xs.tail) :
    ∃ pre post, xs = pre ++ a :: b :: post := by
  induction xs with
  | nil => simp at h
  | cons n xs ih =>
    cases xs with
    | nil => simp at h
    | cons m xs =>
      rcases List.mem_cons.mp h with h | h
      · obtain ⟨rfl, rfl⟩ := Prod.mk.inj h
        exact ⟨[], xs, rfl⟩
      · obtain ⟨pre, post, heq⟩ := ih h
        exact ⟨n :: pre, post, by rw [heq, List.cons_append]⟩

end Silt
