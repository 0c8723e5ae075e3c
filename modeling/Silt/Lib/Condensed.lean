import Mathlib.Data.List.Nodup
import Mathlib.Logic.Relation

/-!
# Groups in the order of their edges

A sequence of groups of the nodes of a graph, one added at a time: the nodes of a group reach each
other, and every edge of a group leads into the group or into one before it.  Then the groups are
the strongly connected components of their nodes.

## Main definitions

* `Mutual` : each of two nodes reaches the other.
* `Condensed` : the sequences of groups.

## Main results

* `Condensed.mem_iff_mutual` : two nodes are in one group if and only if each reaches the other.
* `Condensed.edge_le` : an edge leads to no later group.
-/

namespace Lib.Graph

variable {α : Type} {edge : α → α → Prop}

/-- Each of the two reaches the other. -/
def Mutual (edge : α → α → Prop) (u v : α) : Prop :=
  Relation.ReflTransGen edge u v ∧ Relation.ReflTransGen edge v u

/-- Groups, each of nodes that reach each other, with edges into itself and into those before it
alone. -/
inductive Condensed (edge : α → α → Prop) : List (List α) → Prop
  | nil : Condensed edge []
  | snoc {gs : List (List α)} {g : List α} (h : Condensed edge gs)
      (hmutual : ∀ u ∈ g, ∀ v ∈ g, Mutual edge u v)
      (hedge : ∀ u ∈ g, ∀ w, edge u w → w ∈ g ∨ w ∈ gs.flatten)
      (hfresh : ∀ u ∈ g, u ∉ gs.flatten) : Condensed edge (gs ++ [g])

namespace Condensed

variable {u w : α}

variable {gs : List (List α)}

section

variable (h : Condensed edge gs)

include h

theorem mem_of_edge (hu : u ∈ gs.flatten) (hw : edge u w) : w ∈ gs.flatten := by
  induction h with
  | nil => simp at hu
  | @snoc gs g h _ he _ ih => grind

theorem mem_of_reaches (hu : u ∈ gs.flatten)
    (hw : Relation.ReflTransGen edge u w) : w ∈ gs.flatten := by
  induction hw with
  | refl => exact hu
  | tail _ hvw ih => exact h.mem_of_edge ih hvw

theorem mem_iff_mutual {g : List α} (hg : g ∈ gs) {v : α} (hu : u ∈ g) :
    v ∈ g ↔ Mutual edge u v := by
  induction h with
  | nil => cases hg
  | @snoc gs g' h hm he hf ih =>
    have hw : Condensed edge (gs ++ [g']) := .snoc h hm he hf
    rcases List.mem_append.mp hg with hg | hg
    · exact ih hg
    · obtain rfl := List.mem_singleton.mp hg
      refine ⟨fun hv => hm u hu v hv, fun huv => ?_⟩
      have hv := hw.mem_of_reaches (by simp [hu]) huv.1
      rw [List.flatten_append, List.mem_append] at hv
      rcases hv with hv | hv
      · exact absurd (h.mem_of_reaches hv huv.2) (hf u hu)
      · simpa using hv

/-- An edge leads into the group it leaves or into one before it. -/
theorem edge_le {i j : Nat} {g g' : List α} (hi : gs[i]? = some g)
    (hj : gs[j]? = some g') (hu : u ∈ g) (hw : w ∈ g') (huw : edge u w) : j ≤ i := by
  induction h with
  | nil => simp at hi
  | @snoc gs last h hmt he hf ih =>
    have hl : ∀ {k : Nat} {x : List α}, (gs ++ [last])[k]? = some x → k ≤ gs.length :=
      fun hk => by
        grind
    rcases Nat.lt_or_ge i gs.length with hlt | hge
    · rw [List.getElem?_append_left hlt] at hi
      rcases Nat.lt_or_ge j gs.length with hlj | hg
      · rw [List.getElem?_append_left hlj] at hj
        exact ih hi hj
      · -- The edge would lead out of the groups before the last.
        obtain rfl : j = gs.length := Nat.le_antisymm (hl hj) hg
        obtain rfl : last = g' := by simpa using hj
        have hm : u ∈ gs.flatten := List.mem_flatten.mpr ⟨g, List.mem_of_getElem? hi, hu⟩
        exact absurd (h.mem_of_edge hm huw) (hf w hw)
    · exact Nat.le_trans (hl hj) hge

theorem nodup_flatten (hg : ∀ g ∈ gs, g.Nodup) : gs.flatten.Nodup := by
  induction h with
  | nil => exact List.nodup_nil
  | @snoc gs g _ _ _ hf ih => grind

end

end Condensed

/-- A node that reaches itself by at least one edge has a node with which it reaches each other at
the end of an edge of its. -/
theorem exists_edge_mutual {u : α} (h : Relation.TransGen edge u u) :
    ∃ w, edge u w ∧ Mutual edge u w := by
  obtain ⟨w, huw, hwu⟩ := Relation.TransGen.head'_iff.mp h
  exact ⟨w, huw, .single huw, hwu⟩

theorem transGen_of_mutual {u v : α} (hne : u ≠ v) (h : Mutual edge u v) :
    Relation.TransGen edge u u := by
  rcases Relation.reflTransGen_iff_eq_or_transGen.mp h.1 with heq | ht
  · exact absurd heq.symm hne
  · exact ht.trans_left h.2

end Lib.Graph
