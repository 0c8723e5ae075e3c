import Mathlib.Data.Fintype.Card
import Mathlib.Data.List.Chain
import Silt.Lib.Elementwise

/-!
# Breadth-first search with the way it came

A search that notes, for each node it sees, the node it saw it from.  The notes are a list, the
newest first: a node is noted once, and the one it was seen from is the root or was noted before
it.  So the way back up the notes ends, and is a path of the graph.

## Main definitions

* `Grown` : the notes a search from a root can make.
* `Sweep` : the notes and the queue, with `see` and `spread`.
* `Sweep.Line` : the nodes stand in the queue in the order of the notes.
* `wayTo` : the way from the root to a node, read off the notes.
* `Sweep.Sound` : what a search keeps: what is noted and is not in the queue has been spread.

## Main results

* `wayTo_spec` : the way read off the notes is a path from the root.
* `Sweep.Sound.pop` : taking a node off the queue and spreading it keeps the invariant.
* `Sweep.Sound.mem_of_reaches` : with an empty queue, all that the root reaches is noted.
-/

namespace Lib.Graph

open List

open Relation

variable {α : Type} {edge : α → α → Prop} {root : α}

variable {path : List α}

/-- The nodes noted. -/
def noted (notes : List (α × α)) : List α :=
  notes.map Prod.fst

@[simp] theorem noted_nil : noted ([] : List (α × α)) = [] := rfl

@[simp] theorem noted_cons (n p : α) (notes : List (α × α)) :
    noted ((n, p) :: notes) = n :: noted notes := rfl

@[simp] theorem length_noted (notes : List (α × α)) : (noted notes).length = notes.length :=
  length_map _

/-- The notes of a search from `root`: each node once, seen over an edge from the root or from a
node noted before. -/
inductive Grown (edge : α → α → Prop) (root : α) : List (α × α) → Prop
  | nil : Grown edge root []
  | cons {n p : α} {notes : List (α × α)} (h : Grown edge root notes) (hedge : edge p n)
      (hparent : p = root ∨ p ∈ noted notes) (hfresh : n ∉ noted notes) :
      Grown edge root ((n, p) :: notes)

namespace Grown

variable {notes : List (α × α)}

theorem nodup (h : Grown edge root notes) : (noted notes).Nodup := by
  induction h with
  | nil => exact nodup_nil
  | cons _ _ _ hf ih => exact nodup_cons.mpr ⟨hf, ih⟩

theorem reaches (h : Grown edge root notes) {n : α} (hn : n ∈ noted notes) :
    TransGen edge root n := by
  induction h generalizing n with
  | nil => simp at hn
  | @cons m p notes _ he hpr _ ih =>
    rw [noted_cons, mem_cons] at hn
    grind

theorem length_le [Fintype α] (h : Grown edge root notes) : notes.length ≤ Fintype.card α := by
  rw [← length_noted]
  exact h.nodup.length_le_card

variable [DecidableEq α]

/-- The note of a node among the older ones is found, and its parent is older still. -/
theorem lookup (h : Grown edge root notes) {o : List (α × α)} (ho : o <:+ notes) {n : α}
    (hn : n ∈ noted o) :
    ∃ p o', notes.lookup n = some p ∧ edge p n ∧ (p = root ∨ p ∈ noted o') ∧ o' <:+ notes ∧
      o'.length < o.length := by
  induction h generalizing o with
  | nil => simp [suffix_nil.mp ho] at hn
  | @cons m q notes h hed hpa hf ih =>
    -- the note sought is the newest, or it is among the others
    by_cases hnm : n = m
    · subst hnm
      have hw : o = (n, q) :: notes := by
        rcases suffix_cons_iff.mp ho with ho | ho
        · exact ho
        · exact absurd ((ho.map Prod.fst).subset hn) hf
      grind
    · have hl : ((m, q) :: notes).lookup n = notes.lookup n := by
        rw [lookup_cons, beq_false_of_ne hnm]
      rcases suffix_cons_iff.mp ho with ho | ho
      · have hn' : n ∈ noted notes := by
          simp_all
        grind
      grind

end Grown

/-! ### The way back -/

section Way

variable [DecidableEq α]

/-- The way from the root to `n`, put before `way`: up the notes until one was seen from the
root. -/
def wayTo (notes : List (α × α)) (root : α) : Nat → α → List α → List α
  | 0, _, way => way
  | fuel + 1, n, way =>
    match notes.lookup n with
    | none => way
    | some p => if p = root then way else wayTo notes root fuel p (p :: way)

theorem wayTo_of_grown {notes : List (α × α)} (h : Grown edge root notes) :
    ∀ (fuel : Nat) {o : List (α × α)} {n : α} (way : List α), o <:+ notes → n ∈ noted o →
      o.length ≤ fuel →
      ∃ pre, wayTo notes root fuel n (n :: way) = pre ++ n :: way ∧
        List.IsChain edge (root :: (pre ++ [n])) := by
  intro fuel
  induction fuel with
  | zero =>
    intro o n way _ hn hln
    simp [length_eq_zero_iff.mp (Nat.le_zero.mp hln)] at hn
  | succ fuel ih =>
    intro o n way ho hn hln
    obtain ⟨p, o', hl, he, hpr, ho', hln'⟩ := h.lookup ho hn
    unfold wayTo
    rw [hl]
    by_cases hp : p = root
    · subst hp
      exact ⟨[], by simp, by simpa using he⟩
    · obtain ⟨pre, hw, hc⟩ := ih (n :: way) ho' (hpr.resolve_left hp) (by omega)
      refine ⟨pre ++ [p], by simp [hp, hw], ?_⟩
      simp_all

/-- The way read off the notes is a path from the root that ends at the node. -/
theorem wayTo_spec {notes : List (α × α)} (h : Grown edge root notes) {n : α}
    (hn : n ∈ noted notes) :
    ∃ pre, wayTo notes root notes.length n [n] = pre ++ [n] ∧
      List.IsChain edge (root :: (pre ++ [n])) :=
  wayTo_of_grown h notes.length [] suffix_rfl hn le_rfl

end Way

theorem reached_of_isChain (h : List.IsChain edge (root :: path)) {n : α} (hn : n ∈ path) :
    TransGen edge root n :=
  (h.imp fun _ _ => TransGen.single).rel_cons hn

theorem reaches_of_isChain {last : α} (h : List.IsChain edge (path ++ [last])) {n : α}
    (hn : n ∈ path) : TransGen edge n last := by
  obtain ⟨pre, post, rfl⟩ := append_of_mem hn
  have hr : List.IsChain edge (n :: (post ++ [last])) := by
    rw [append_assoc] at h
    exact h.right_of_append
  exact reached_of_isChain hr (by simp)

/-- Two neighbours on a path: an edge, from what the first node reaches to what reaches the
last. -/
theorem of_mem_zip_tail {pre : List α} {last a b : α}
    (h : List.IsChain edge (root :: (pre ++ [last])))
    (hab : (a, b) ∈ (root :: (pre ++ [last])).zip (root :: (pre ++ [last])).tail) :
    edge a b ∧ ReflTransGen edge root a ∧ ReflTransGen edge b last := by
  have ha := (of_mem_zip hab).1
  have hb : b ∈ pre ++ [last] := (of_mem_zip hab).2
  refine ⟨?_, ?_, ?_⟩
  · obtain ⟨before, after, hs⟩ := Silt.exists_of_mem_zip_tail hab
    rw [hs, isChain_append_cons_cons] at h
    exact h.2.1
  · rcases mem_cons.mp ha with rfl | ha
    · exact .refl
    · exact (reached_of_isChain h ha).to_reflTransGen
  · rcases mem_append.mp hb with hb | hb
    · exact (reaches_of_isChain (show List.IsChain edge (root :: pre ++ [last]) from h)
        (mem_cons_of_mem _ hb)).to_reflTransGen
    · rw [mem_singleton.mp hb]

/-! ### The search -/

/-- A search under way: what it has noted, the newest first, and what waits to be spread. -/
structure Sweep (α : Type) where
  notes : List (α × α) := []
  queue : List α := []
deriving DecidableEq, Repr

namespace Sweep

variable {s : Sweep α}

variable [DecidableEq α]

/-- A node seen from `p`: noted and queued, unless it has been seen before. -/
def see (p : α) (s : Sweep α) (n : α) : Sweep α :=
  if n ∈ noted s.notes then s else ⟨(n, p) :: s.notes, s.queue ++ [n]⟩

/-- All that a node leads to is seen from it. -/
def spread (next : α → List α) (s : Sweep α) (p : α) : Sweep α :=
  (next p).foldl (see p) s

theorem mem_noted_see {p n m : α} : m ∈ noted (s.see p n).notes ↔ m ∈ noted s.notes ∨ m = n := by
  unfold see
  split_ifs with hn
  · exact ⟨.inl, fun h => h.elim id fun h => h ▸ hn⟩
  · rw [noted_cons, mem_cons, or_comm]

theorem mem_noted_foldl {p m : α} {ns : List α} :
    m ∈ noted (ns.foldl (see p) s).notes ↔ m ∈ noted s.notes ∨ m ∈ ns := by
  induction ns generalizing s with
  | nil => simp
  | cons n ns ih =>
    rw [foldl_cons, ih, mem_noted_see, mem_cons, or_assoc]

/-- The nodes in the order they were seen: what was taken off the queue, then the queue. -/
def Line (first popped : List α) (s : Sweep α) : Prop :=
  first ++ (noted s.notes).reverse = popped ++ s.queue

theorem Line.foldl_see {first popped : List α} (h : Line first popped s) (p : α) (ns : List α) :
    Line first popped (ns.foldl (see p) s) := by
  induction ns generalizing s with
  | nil => exact h
  | cons n ns ih =>
    refine ih ?_
    unfold see
    split_ifs
    · exact h
    · unfold Line at h ⊢
      rw [noted_cons, reverse_cons, ← append_assoc, h, append_assoc]

omit [DecidableEq α] in
/-- When as many nodes have been taken off the queue as there are, the queue is empty. -/
theorem Line.queue_eq_nil [Fintype α] {first popped : List α} (h : Line first popped s)
    (hg : Grown edge root s.notes) (ha : first.length + Fintype.card α ≤ popped.length) :
    s.queue = [] := by
  have hle := hg.length_le
  have hl := congrArg List.length h
  simp only [length_append, length_reverse, length_noted] at hl
  exact length_eq_zero_iff.mp (by omega)

/-- What a search from `root` keeps while `busy` is being spread: what is noted was reached, and
all that a node leads to is noted, unless the node is in the queue or busy. -/
structure Sound (edge : α → α → Prop) (root : α) (busy : α → Prop) (s : Sweep α) : Prop where
  grown : Grown edge root s.notes
  queued : ∀ n ∈ s.queue, n = root ∨ n ∈ noted s.notes
  spread : ∀ p, p = root ∨ p ∈ noted s.notes → p ∉ s.queue → ¬ busy p →
    ∀ n, edge p n → n ∈ noted s.notes

namespace Sound

variable {p : α}

variable {busy : α → Prop} {s : Sweep α}

omit [DecidableEq α] in
/-- Before anything is seen, nothing but the root can be busy. -/
theorem init (edge : α → α → Prop) (root : α) (hb : busy root) : Sound edge root busy {} where
  grown := .nil
  queued := by simp
  spread := by
    rintro p (rfl | hp) _ hn
    · exact absurd hb hn
    · simp at hp

omit [DecidableEq α] in
theorem start (edge : α → α → Prop) (root : α) (busy : α → Prop) :
    Sound edge root busy ⟨[], [root]⟩ where
  grown := .nil
  queued := by simp
  spread := by
    rintro p (rfl | hp) hq
    · simp at hq
    · simp at hp

theorem see (h : Sound edge root busy s) {n : α} (hp : p = root ∨ p ∈ noted s.notes)
    (he : edge p n) : Sound edge root busy (s.see p n) := by
  unfold Sweep.see
  split_ifs with hn
  · exact h
  · refine ⟨h.grown.cons he hp hn, ?_, ?_⟩
    · intro m hm
      rcases mem_append.mp hm with hm | hm
      · exact (h.queued m hm).imp_right (mem_cons_of_mem _)
      · rw [mem_singleton.mp hm]
        exact .inr mem_cons_self
    · intro q hq hnt hi m hm
      rw [mem_append, mem_singleton, not_or] at hnt
      have hq' : q = root ∨ q ∈ noted s.notes :=
        hq.imp_right fun hq => (mem_cons.mp hq).resolve_left hnt.2
      exact mem_cons_of_mem _ (h.spread q hq' hnt.1 hi m hm)

theorem foldl_see (h : Sound edge root busy s) (hp : p = root ∨ p ∈ noted s.notes) {ns : List α}
    (hns : ∀ n ∈ ns, edge p n) : Sound edge root busy (ns.foldl (Sweep.see p) s) := by
  induction ns generalizing s with
  | nil => exact h
  | cons n ns ih =>
    have hs := h.see hp (hns n mem_cons_self)
    exact ih hs (hp.imp_right fun hp => mem_noted_see.mpr (.inl hp))
      fun m hm => hns m (mem_cons_of_mem _ hm)

/-- Once all it leads to is seen, a node is no longer busy. -/
theorem spread_all (h : Sound edge root (· = p) s) {next : α → List α}
    (hnx : ∀ n, n ∈ next p ↔ edge p n) (hp : p = root ∨ p ∈ noted s.notes) :
    Sound edge root (fun _ => False) (s.spread next p) := by
  have ha := h.foldl_see hp fun n hn => (hnx n).mp hn
  refine ⟨ha.grown, ha.queued, fun q hq hnt _ m hm => ?_⟩
  by_cases hqp : q = p
  · subst hqp
    exact mem_noted_foldl.mpr (.inr ((hnx m).mpr hm))
  · exact ha.spread q hq hnt hqp m hm

omit [DecidableEq α] in
theorem pop {rest : List α} {notes : List (α × α)}
    (h : Sound edge root (fun _ => False) ⟨notes, p :: rest⟩) :
    Sound edge root (· = p) ⟨notes, rest⟩ where
  grown := h.grown
  queued n hn := h.queued n (mem_cons_of_mem _ hn)
  spread q hq hnt hqp := h.spread q hq (by simp [hqp, hnt]) id

omit [DecidableEq α] in
/-- With nothing left to spread, all that the root reaches is noted. -/
theorem mem_of_reaches {notes : List (α × α)} (h : Sound edge root (fun _ => False) ⟨notes, []⟩)
    {n : α} (hn : TransGen edge root n) : n ∈ noted notes := by
  induction hn with
  | single hn => exact h.spread root (.inl rfl) (by simp) id _ hn
  | tail _ hn ih => exact h.spread _ (.inr ih) (by simp) id _ hn

end Sound

end Sweep

end Lib.Graph
