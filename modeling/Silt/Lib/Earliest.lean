import Mathlib.Data.List.Lex
import Mathlib.Order.Preorder.Finite

/-!
# The least order that keeps to a precedence

Items are put in order one at a time: of those whose predecessors are all in, the least.  The
result is the lexicographically least of the orders that put every item after its predecessors,
and where the precedence has no cycle it holds every item.

## Main definitions

* `Ready` : an item whose predecessors are all in.
* `Keeps` : a list that puts every item after its predecessors.
* `Greedy` : a list that goes on with the least item that is ready.

## Main results

* `Greedy.keeps`, `Greedy.le` : a greedy list keeps to the precedence and is the least that does.
* `exists_ready` : while an item is left, one is ready.
-/

namespace Lib.Precedence

open Relation

variable {α : Type}

variable {n : α}

/-- An item that is not in yet and whose predecessors all are. -/
structure Ready (before : α → α → Prop) (items : List α) (done : List α) (n : α) : Prop where
  mem : n ∈ items
  fresh : n ∉ done
  ready : ∀ m, before m n → m ∈ done

/-- Every item of the list, after those of `done`, stands after its predecessors. -/
inductive Keeps (before : α → α → Prop) : List α → List α → Prop
  | nil {done : List α} : Keeps before done []
  | cons {done rest : List α} {n : α} (hready : ∀ m, before m n → m ∈ done)
      (h : Keeps before (done ++ [n]) rest) : Keeps before done (n :: rest)

/-- The list goes on, after `done`, with the least item that is ready, until none is. -/
inductive Greedy [LE α] (before : α → α → Prop) (items : List α) : List α → List α → Prop
  | stop {done : List α} (h : ∀ n, ¬ Ready before items done n) : Greedy before items done []
  | next {done rest : List α} {n : α} (hready : Ready before items done n)
      (hleast : ∀ m, Ready before items done m → n ≤ m)
      (h : Greedy before items (done ++ [n]) rest) : Greedy before items done (n :: rest)

variable {before : α → α → Prop} {items done rest : List α}

/-- What stands in a list that keeps to the precedence has its predecessors before it. -/
theorem Keeps.mem_of_before (h : Keeps before done rest) {pre post : List α} {m : α}
    (hs : rest = pre ++ n :: post) (hm : before m n) : m ∈ done ++ pre := by
  induction h generalizing pre with
  | nil => simp at hs
  | @cons done rest k hrd h ih =>
    cases pre with
    | nil => grind
    | cons k' pre =>
      obtain ⟨rfl, hr⟩ := List.cons.inj hs
      simpa using ih hr

theorem keeps_of_mem_of_before
    (h : ∀ pre n post, rest = pre ++ n :: post → ∀ m, before m n → m ∈ done ++ pre) :
    Keeps before done rest := by
  induction rest generalizing done with
  | nil => exact .nil
  | cons n rest ih =>
    refine .cons (fun m hm => by simpa using h [] n rest rfl m hm) (ih ?_)
    grind

theorem Greedy.keeps [LE α] (h : Greedy before items done rest) : Keeps before done rest := by
  induction h with
  | stop => exact .nil
  | next hr _ _ ih => exact .cons hr.ready ih

theorem Greedy.nodup [LE α] (h : Greedy before items done rest) (hd : done.Nodup) :
    (done ++ rest).Nodup := by
  induction h with
  | stop => simpa using hd
  | @next done rest n hr _ _ ih =>
    have hs : (done ++ [n]).Nodup :=
      List.nodup_append.mpr ⟨hd, List.nodup_singleton n, by
        rintro a ha b hb rfl
        exact hr.fresh (List.mem_singleton.mp hb ▸ ha)⟩
    simpa using ih hs

theorem Greedy.subset [LE α] (h : Greedy before items done rest) : rest ⊆ items := by
  induction h with
  | stop => simp
  | next hr _ _ ih => exact List.cons_subset.mpr ⟨hr.mem, ih⟩

/-- Where the precedence has no cycle and stays among the items, an item that is left has one that
is ready before it. -/
theorem exists_ready [Finite α] (ha : ∀ n, ¬ TransGen before n n)
    (hi : ∀ m n, before m n → m ∈ items) (hn : n ∈ items) (hf : n ∉ done) :
    ∃ m, Ready before items done m := by
  have hir : Std.Irrefl (TransGen before) := ⟨ha⟩
  have hwf : WellFounded (TransGen before) := Finite.wellFounded_of_trans_of_irrefl _
  obtain ⟨m, ⟨hm, hmf⟩, hl⟩ := hwf.has_min {m | m ∈ items ∧ m ∉ done} ⟨n, hn, hf⟩
  refine ⟨m, hm, hmf, fun k hk => ?_⟩
  by_contra hkf
  exact hl k ⟨hi k m hk, hkf⟩ (.single hk)

/-- Then the greedy list holds every item. -/
theorem Greedy.mem [LE α] [Finite α] (h : Greedy before items done rest)
    (ha : ∀ n, ¬ TransGen before n n) (hi : ∀ m n, before m n → m ∈ items)
    (hn : n ∈ items) : n ∈ done ++ rest := by
  induction h with
  | stop hs =>
    by_contra hf
    obtain ⟨m, hm⟩ := exists_ready ha hi hn (by simpa using hf)
    exact hs m hm
  | next _ _ _ ih => simpa using ih

/-- Of the lists of the items that keep to the precedence, the greedy one is least. -/
theorem Greedy.le [LinearOrder α] (h : Greedy before items done rest) {other : List α}
    (hk : Keeps before done other) (hnodup : (done ++ other).Nodup) (hs : other ⊆ items)
    (hl : other.length = rest.length) : rest ≤ other := by
  induction h generalizing other with
  | stop => grind
  | @next done rest n _ hls _ ih =>
    cases hk with
    | nil => simp at hl
    | @cons _ others m hr hk =>
      have hm : Ready before items done m := ⟨hs List.mem_cons_self,
          fun hm => (List.nodup_append.mp hnodup).2.2 m hm m List.mem_cons_self rfl, hr⟩
      rcases (hls m hm).lt_or_eq with hlt | rfl
      · exact le_of_lt (List.Lex.rel hlt)
      · have hle : rest ≤ others :=
          ih hk (by simpa using hnodup) (List.cons_subset.mp hs).2 (by simpa using hl)
        rcases hle.lt_or_eq with hlt | rfl
        · exact le_of_lt (List.Lex.cons hlt)
        · exact le_rfl

end Lib.Precedence
