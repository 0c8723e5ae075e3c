import Mathlib.Data.Set.Basic

/-!
# Searches for an element outside a set

A search over the elements of `s` answers whether `t` has all of them. When it does not, its answer
is a description, of which no element of `s` is in `t`. A search that splits its problem into
smaller ones is right when its parts are: the lemmas here say how answers are carried along a map of
the elements and put together from cases.

## Main definitions

* `Settles`: the answer is right.

## Main results

* `Settles.lift`: the answer of a smaller problem, read as one of the larger problem.
* `Settles.of_case`, `Settles.of_cases`: the answer of one case, and of all cases together.
-/

/-- `found` answers whether `t` has every element of `s`: it is `none` when it has, and otherwise a
description of elements of `s` none of which is in `t`. When `live` holds, there is such an element.
-/
structure Settles {α β : Type*} (live : Prop) (s t : Set α) (describes : β → Set α)
    (found : Option β) : Prop where
  covered : found = none → ∀ a ∈ s, a ∈ t
  missed : ∀ b, found = some b → ∀ a ∈ s, a ∈ describes b → a ∉ t
  exists_missed : live → ∀ b, found = some b → ∃ a ∈ s, a ∈ describes b

namespace Settles

variable {α α' β β' : Type*} {live live' : Prop} {s s' t t' : Set α} {describes : β → Set α}
  {found : Option β}

theorem iff (h : Settles live s t describes found) (hl : live) : found = none ↔ ∀ a ∈ s, a ∈ t := by
  refine ⟨h.covered, fun hal => ?_⟩
  cases found with
  | none => rfl
  | some b =>
    obtain ⟨a, ha, hb⟩ := h.exists_missed hl b rfl
    exact absurd (hal a ha) (h.missed b rfl a ha hb)

theorem congr (h : Settles live s t describes found) (ht : ∀ a ∈ s, (a ∈ t ↔ a ∈ t')) :
    Settles live s t' describes found where
  covered hn a ha := (ht a ha).mp (h.covered hn a ha)
  missed b hb a ha hab := fun hat => h.missed b hb a ha hab ((ht a ha).mpr hat)
  exists_missed := h.exists_missed

/-- The answer of a smaller problem, whose elements are the images of those of `s`. -/
theorem lift {s' t' : Set α'} {describes' : β' → Set α'} {found' : Option β'}
    (h : Settles live' s' t' describes' found') (proj : α → α') (up : β' → β)
    (hp : ∀ a ∈ s, proj a ∈ s') (hbc : ∀ a ∈ s, proj a ∈ t' → a ∈ t)
    (hds : ∀ b', ∀ a ∈ s, a ∈ describes (up b') → proj a ∈ describes' b' ∧ (a ∈ t → proj a ∈ t'))
    (hlv : live → live' ∧ ∀ b', ∀ a' ∈ s', a' ∈ describes' b' → ∃ a ∈ s, a ∈ describes (up b')) :
    Settles live s t describes (found'.map up) where
  covered hn a ha := hbc a ha (h.covered (Option.map_eq_none_iff.mp hn) _ (hp a ha))
  missed b hb a ha hab hat := by
    obtain ⟨b', hb', rfl⟩ := Option.map_eq_some_iff.mp hb
    obtain ⟨hd, hat'⟩ := hds b' a ha hab
    exact h.missed b' hb' (proj a) (hp a ha) hd (hat' hat)
  exists_missed hl b hb := by
    obtain ⟨b', hb', rfl⟩ := Option.map_eq_some_iff.mp hb
    obtain ⟨hl', hs⟩ := hlv hl
    obtain ⟨a', ha', hd⟩ := h.exists_missed hl' b' hb'
    exact hs b' a' ha' hd

theorem of_case {b : β} (h : Settles live s' t describes (some b)) (hs : ∀ a ∈ s', a ∈ s)
    (hcs : ∀ a ∈ s, a ∈ describes b → a ∈ s') : Settles live s t describes (some b) where
  covered := nofun
  missed c hc a ha hab := by
    obtain rfl : b = c := Option.some.inj hc
    exact h.missed b rfl a (hcs a ha hab) hab
  exists_missed hl c hc := by
    obtain ⟨a, ha, hab⟩ := h.exists_missed hl c hc
    exact ⟨a, hs a ha, hab⟩

theorem of_cases (h : ∀ a ∈ s, a ∈ t) : Settles live s t describes none where
  covered _ := h
  missed _ := nofun
  exists_missed _ _ := nofun

end Settles
