import Mathlib.Algebra.Ring.Nat
import Mathlib.Data.Finset.Card
import Mathlib.Data.List.Sort
import Silt.Lib.Condensed
import Silt.Lib.Deepening

/-!
# The order definitions are checked in

The functions and top-level lets of a module form a graph, an edge for each reference.  Its strongly
connected components, callees first, are the groups that are inferred together.  They are found by
Tarjan's algorithm with its recursion on a list of work: each node has a number, in the order the
nodes are come to, and a low link, the least number of a node on the stack it is known to reach.

## Main definitions

* `Graph` : nodes and edges, every edge to a node.
* `Search` : the state of the search.
* `stronglyConnected` : the components, in order.

## Main results

* `stronglyConnected_spec` : they are the strongly connected components, callees first.
-/

namespace Silt.Typechecker.Order

open List Function

/-- A group of definitions inferred together. -/
structure Component where
  members : List Nat
  /-- Whether a member refers to a member: itself, or through the others. -/
  cyclic : Bool

/-- The state of the search.  The stack and the work have their top first. -/
structure Search where
  /-- The number of a node that has been come to. -/
  index : Nat → Option Nat
  low : Nat → Nat
  onStack : Nat → Bool
  stack : List Nat
  nextIndex : Nat
  components : List Component
  /-- Each entry: a node and how many of its edges are followed. -/
  work : List (Nat × Nat)

namespace Search

/-- Nothing has been come to. -/
def new : Search := ⟨fun _ => none, fun _ => 0, fun _ => false, [], 0, [], []⟩

/-- The node is come to. -/
def enter (s : Search) (v : Nat) : Search :=
  { s with
    index := update s.index v (some s.nextIndex)
    low := update s.low v s.nextIndex
    nextIndex := s.nextIndex + 1
    stack := v :: s.stack
    onStack := update s.onStack v true }

/-- The node on top of the work is come to, if none of its edges has been followed. -/
def openTop (s : Search) : Search :=
  match s.work with
  | (v, 0) :: _ => s.enter v
  | _ => s

/-- The low link of the node is no more than the number. -/
def lower (s : Search) (v i : Nat) : Search :=
  { s with low := update s.low v (min (s.low v) i) }

/-- The nodes down to `v`, in the order they are taken off, and the stack without them. -/
def popTo (v : Nat) : List Nat → Option (List Nat × List Nat)
  | [] => none
  | w :: rest =>
    if w = v then some ([w], rest)
    else (popTo v rest).map fun (members, rest) => (w :: members, rest)

variable (edges : List (List Nat))

/-- The edges of the node. -/
def edgesOf (v : Nat) : List Nat := edges.getD v []

/-- The component of the nodes that were taken off the stack, `v` last. -/
def componentOf (v : Nat) (members : List Nat) : Component where
  members := members.mergeSort (· ≤ ·)
  cyclic := decide (1 < members.length) || decide (v ∈ edgesOf edges v)

/-- If `v` is the first of its component that was come to, the component is taken off the stack. -/
def close (s : Search) (v : Nat) : Option Search :=
  if s.index v = some (s.low v) then do
    let (members, stack) ← popTo v s.stack
    return { s with
      stack
      onStack := fun u => s.onStack u && decide (u ∉ members)
      components := s.components ++ [componentOf edges v members] }
  else some s

/-- The next edge of the node `v` on top of the work is followed; without one, `v` is finished. -/
def follow (s : Search) (v followed : Nat) (below : List (Nat × Nat)) : Option Search :=
  match (edgesOf edges v)[followed]? with
  | some w =>
    let s := { s with work := (v, followed + 1) :: below }
    match s.index w with
    | none => some { s with work := (w, 0) :: s.work }
    | some i => some (if s.onStack w then s.lower v i else s)
  | none =>
    let s := { s with work := below }
    match below with
    | (parent, _) :: _ => (s.lower parent (s.low v)).close edges v
    | [] => s.close edges v

/-- One round of the loop over the work. -/
def step (s : Search) : Option Search :=
  match s.openTop.work with
  | (v, followed) :: below => s.openTop.follow edges v followed below
  | [] => some s

/-- The loop over the work, within `fuel` rounds. -/
def loop : Nat → Search → Option Search
  | 0, _ => none
  | fuel + 1, s => if s.work = [] then some s else do loop fuel (← s.step edges)

/-- The search from one root, if it has not been come to. -/
def searchFrom (fuel : Nat) (s : Search) (root : Nat) : Option Search :=
  if (s.index root).isSome then some s else { s with work := [(root, 0)] }.loop edges fuel

end Search

/-- The strongly connected components of the graph over `nodes`, each after every component it has
an edge to, if each search takes at most `fuel` rounds. -/
def stronglyConnected (fuel : Nat) (nodes : List Nat) (edges : List (List Nat)) :
    Option (List Component) := do
  let s ← nodes.foldlM (Search.searchFrom edges fuel) Search.new
  return s.components

/-- A graph: its nodes, the edges of each, and that every edge is to a node. -/
structure Graph where
  nodes : List Nat
  edges : List (List Nat)
  inside : ∀ v ∈ nodes, v < edges.length
  closed : ∀ v ∈ nodes, ∀ w ∈ Search.edgesOf edges v, w ∈ nodes

/-- The graph has an edge from the one to the other. -/
def Graph.Edge (g : Graph) (u w : Nat) : Prop := w ∈ Search.edgesOf g.edges u

namespace Search

open Lib.Graph Relation

variable {v f w u : Nat} {below : List (Nat × Nat)}

/-! ### The stack in piles

The nodes of the work are on the stack, and above each of them lie the nodes that are finished and
were come to from it. -/

/-- The stack, as the nodes of the work, each with what lies above it. -/
inductive Piles (edge : Nat → Nat → Prop) (low : Nat → Nat) : List Nat → List Nat → Prop
  | nil : Piles edge low [] []
  | cons {v : Nat} {grays above stack : List Nat} (h : Piles edge low grays stack)
      (hlink : ∀ p ∈ grays.head?, edge p v)
      (habove : ∀ u ∈ above, low v ≤ low u ∧ ReflTransGen edge v u) :
      Piles edge low (v :: grays) (above ++ v :: stack)

namespace Piles

variable {v : Nat}

variable {edge : Nat → Nat → Prop} {low low' : Nat → Nat} {grays stack : List Nat}

theorem subset (h : Piles edge low grays stack) : ∀ v ∈ grays, v ∈ stack := by
  induction h with
  | nil => simp
  | @cons v grays above stack _ _ _ ih => grind

/-- The node on top of the work was come to by an edge. -/
theorem link {p : Nat} (h : Piles edge low (v :: p :: grays) stack) : edge p v := by
  cases h with
  | cons _ hl _ => exact hl p rfl

theorem stack_nil (h : Piles edge low grays stack) (hg : grays = []) : stack = [] := by
  cases h with
  | nil => rfl
  | cons => cases hg

theorem congr (h : Piles edge low grays stack) (hl : ∀ u ∈ stack, low' u = low u) :
    Piles edge low' grays stack := by
  induction h with
  | nil => exact .nil
  | @cons v grays above stack _ hln ha ih =>
    refine .cons (ih fun u hu => hl u (by simp [hu])) hln fun u hu => ?_
    rw [hl v (by simp), hl u (by simp [hu])]
    exact ha u hu

/-- The low link of the node on top of the work goes down. -/
theorem lower_head (h : Piles edge low (v :: grays) stack) (hnodup : stack.Nodup)
    (hle : low' v ≤ low v) (hl : ∀ u ≠ v, low' u = low u) : Piles edge low' (v :: grays) stack := by
  cases h with
  | @cons _ _ above below h hln ha =>
    obtain ⟨-, hb, hd⟩ := nodup_append.mp hnodup
    have hv : v ∉ below := (nodup_cons.mp hb).1
    refine .cons (h.congr fun u hu => hl u fun huv => hv (huv ▸ hu)) hln fun u hu => ?_
    grind

/-- The node on top of the work is finished, and lies above the one it was come to from. -/
theorem finish {p : Nat} (h : Piles edge low (v :: p :: grays) stack) (hnodup : stack.Nodup)
    (hv : low' p ≤ low v) (hp : low' p ≤ low p) (hl : ∀ u ≠ p, low' u = low u) :
    Piles edge low' (p :: grays) stack := by
  cases h with
  | @cons _ _ above below h hln ha =>
    have hpv : edge p v := hln p rfl
    obtain ⟨-, hb, hd⟩ := nodup_append.mp hnodup
    obtain ⟨hvb, hb⟩ := nodup_cons.mp hb
    have hpb : p ∈ below := h.subset p (by simp)
    have hvp : v ≠ p := fun heq => hvb (heq ▸ hpb)
    cases h.lower_head hb hp hl with
    | @cons _ _ above' below' h' hln' ha' =>
      rw [← cons_append, ← append_assoc]
      refine .cons h' hln' fun u hu => ?_
      rcases mem_append.mp hu with hu | hu
      · have hup : u ≠ p := hd u hu p (by simp)
        rw [hl u hup]
        exact ⟨hv.trans (ha u hu).1, .head hpv (ha u hu).2⟩
      grind

end Piles

/-! ### The invariant -/

variable {g : Graph} {s : Search}

/-- The number of a node. -/
def num (s : Search) (u : Nat) : Nat := (s.index u).getD 0

/-- The target of a followed edge of `u` has been come to, and is accounted for in the low link of
`u` if it is on the stack. -/
def Accounted (s : Search) (u w : Nat) : Prop :=
  (s.index w).isSome ∧ (w ∈ s.stack → s.low u ≤ s.num w)

/-- The nodes that are in a component. -/
def done (s : Search) : List Nat := (s.components.map Component.members).flatten

/-- What holds between the rounds, once the node on top of the work has been come to. -/
structure Inv (g : Graph) (s : Search) : Prop where
  piles : Piles g.Edge s.low (s.work.map Prod.fst) s.stack
  sorted : s.stack.Pairwise fun a b => s.num b < s.num a
  seen : ∀ u, (s.index u).isSome ↔ u ∈ s.stack ∨ u ∈ s.done
  fresh : ∀ u ∈ s.stack, u ∉ s.done
  bound : ∀ u ∈ s.stack, s.num u < s.nextIndex
  onStack : ∀ u, s.onStack u = true ↔ u ∈ s.stack
  node : ∀ u ∈ s.stack, u ∈ g.nodes
  low_le : ∀ u ∈ s.stack, s.low u ≤ s.num u
  low_reached : ∀ u ∈ s.stack, ∃ w ∈ s.stack, s.num w = s.low u ∧ ReflTransGen g.Edge u w
  followed : ∀ x ∈ s.work, ∀ w ∈ (edgesOf g.edges x.1).take x.2, s.Accounted x.1 w
  begun : ∀ x ∈ s.work.tail, x.2 ≠ 0
  finished : ∀ u ∈ s.stack, u ∉ s.work.map Prod.fst →
    s.low u < s.num u ∧ ∀ w, g.Edge u w → s.Accounted u w
  condensed : Condensed g.Edge (s.components.map Component.members)
  nodes : ∀ u ∈ s.done, u ∈ g.nodes
  ascending : ∀ c ∈ s.components, c.members.Pairwise (· < ·)
  cyclic : ∀ c ∈ s.components, c.cyclic = true ↔ ∃ u ∈ c.members, TransGen g.Edge u u

theorem Inv.nodup (h : Inv g s) : s.stack.Nodup := h.sorted.imp fun hlt heq => by simp [heq] at hlt

theorem Inv.mem_stack (h : Inv g s) (hw : s.work = (v, f) :: below) : v ∈ s.stack :=
  h.piles.subset v (by simp [hw])

theorem Inv.not_mem_stack (h : Inv g s) (hw : s.index w = none) : w ∉ s.stack ∧ w ∉ s.done := by
  have hn : ¬ (w ∈ s.stack ∨ w ∈ s.done) := fun hm => by
    simpa [hw] using (h.seen w).mpr hm
  exact not_or.mp hn

/-! ### A node is come to -/

@[simp]
theorem enter_num_self (s : Search) (w : Nat) : (s.enter w).num w = s.nextIndex := by
  simp [enter, num]

theorem enter_num_of_ne (s : Search) (h : u ≠ w) : (s.enter w).num u = s.num u := by
  simp [enter, num, h]

theorem enter_low_of_ne (s : Search) (h : u ≠ w) : (s.enter w).low u = s.low u := by
  simp [enter, h]

theorem Inv.enter (h : Inv g s) (hw : s.index w = none) (hn : w ∈ g.nodes) {W : List (Nat × Nat)}
    (hW : W.map Prod.fst = s.work.map Prod.fst)
    (hln : ∀ p ∈ (s.work.map Prod.fst).head?, g.Edge p w)
    (hf : ∀ x ∈ W, ∀ u ∈ (edgesOf g.edges x.1).take x.2, s.Accounted x.1 u ∨ u = w)
    (hbg : ∀ x ∈ W, x.2 ≠ 0) : Inv g ({ s with work := (w, 0) :: W }.enter w) := by
  obtain ⟨hs, hd⟩ := h.not_mem_stack hw
  have hne : ∀ u ∈ s.stack, u ≠ w := fun u hu heq => hs (heq ▸ hu)
  have hi : ∀ u, ({ s with work := (w, 0) :: W }.enter w).index u =
      if u = w then some s.nextIndex else s.index u := fun u => by
    by_cases huw : u = w <;> simp [Search.enter, huw]
  -- What is accounted for stays so: the new node has the greatest number.
  have hac : ∀ u ∈ s.stack, ∀ x, s.Accounted u x ∨ x = w →
      ({ s with work := (w, 0) :: W }.enter w).Accounted u x := fun u hu x hx => by
    have hl := enter_low_of_ne { s with work := (w, 0) :: W } (hne u hu)
    by_cases hxw : x = w
    · subst hxw
      refine ⟨by simp [hi], fun _ => ?_⟩
      rw [hl, enter_num_self]
      exact (h.low_le u hu).trans (h.bound u hu).le
    · obtain ⟨hsm, hle⟩ := hx.resolve_right hxw
      refine ⟨by simpa [hi, hxw] using hsm, fun hm => ?_⟩
      rw [hl, enter_num_of_ne _ hxw]
      exact hle (mem_of_ne_of_mem hxw hm)
  refine
    { h with
      piles := ?_, sorted := ?_, seen := fun u => ?_, fresh := fun u hu => ?_
      bound := fun u hu => ?_, onStack := fun u => ?_, node := fun u hu => ?_
      low_le := fun u hu => ?_, low_reached := fun u hu => ?_, followed := fun x hx u hu => ?_
      begun := hbg, finished := fun u hu hg => ?_ }
  · have hl : ∀ u ∈ s.stack, update s.low w s.nextIndex u = s.low u := fun u hu => by
      simp [hne u hu]
    have hp := h.piles.congr hl
    change Piles _ _ (w :: W.map Prod.fst) ([] ++ w :: s.stack)
    rw [hW]
    exact .cons hp hln (by simp)
  · refine pairwise_cons.mpr ⟨fun u hu => ?_, ?_⟩
    · rw [enter_num_of_ne _ (hne u hu), enter_num_self]
      exact h.bound u hu
    · refine h.sorted.imp_of_mem fun {a b} ha hb hlt => ?_
      rwa [enter_num_of_ne _ (hne a ha), enter_num_of_ne _ (hne b hb)]
  · change _ ↔ u ∈ w :: s.stack ∨ u ∈ s.done
    by_cases huw : u = w
    · simp [hi, huw]
    · simpa [hi, huw] using h.seen u
  · rcases mem_cons.mp hu with rfl | hu
    · exact hd
    · exact h.fresh u hu
  · change _ < s.nextIndex + 1
    rcases mem_cons.mp hu with rfl | hu
    · simp
    · rw [enter_num_of_ne _ (hne u hu)]
      exact Nat.lt_succ_of_lt (h.bound u hu)
  · change update s.onStack w true u = true ↔ u ∈ w :: s.stack
    by_cases huw : u = w
    · simp [huw]
    · simpa [huw] using h.onStack u
  · rcases mem_cons.mp hu with rfl | hu
    · exact hn
    · exact h.node u hu
  · rcases mem_cons.mp hu with rfl | hu
    · simp [Search.enter, num]
    · rw [enter_low_of_ne _ (hne u hu), enter_num_of_ne _ (hne u hu)]
      exact h.low_le u hu
  · rcases mem_cons.mp hu with rfl | hu
    · exact ⟨u, hu, by simp [Search.enter, num], .refl⟩
    · obtain ⟨x, hx, hnm, hr⟩ := h.low_reached u hu
      refine ⟨x, mem_cons_of_mem _ hx, ?_, hr⟩
      rw [enter_low_of_ne _ (hne u hu), enter_num_of_ne _ (hne x hx)]
      exact hnm
  · rcases mem_cons.mp hx with rfl | hx
    · simp at hu
    · have hm : x.1 ∈ s.stack := h.piles.subset x.1 (hW ▸ mem_map_of_mem hx)
      exact hac x.1 hm u (hf x hx u hu)
  · have hg : u ≠ w ∧ u ∉ s.work.map Prod.fst := by
      rw [← hW]
      simpa [Search.enter] using hg
    have hu : u ∈ s.stack := mem_of_ne_of_mem hg.1 hu
    obtain ⟨hlt, he⟩ := h.finished u hu hg.2
    rw [enter_low_of_ne _ hg.1, enter_num_of_ne _ hg.1]
    exact ⟨hlt, fun x hx => hac u hu x (.inl (he x hx))⟩

/-! ### An edge is followed, to a node that has been come to -/

theorem Accounted.mono {t : Search} (h : s.Accounted u w) (hi : t.index = s.index)
    (hs : ∀ x ∈ t.stack, x ∈ s.stack) (hl : t.low u ≤ s.low u) : t.Accounted u w := by
  obtain ⟨hsm, hle⟩ := h
  refine ⟨hi ▸ hsm, fun hm => ?_⟩
  have hn : t.num w = s.num w := by rw [num, num, hi]
  rw [hn]
  exact hl.trans (hle (hs w hm))

theorem Inv.advance (h : Inv g s) {m : Nat} (hwr : s.work = (v, f) :: below)
    (hw : (edgesOf g.edges v)[f]? = some w) (hs : (s.index w).isSome) (hle : m ≤ s.low v)
    (ha : w ∈ s.stack → m ≤ s.num w) (hm : m = s.low v ∨ w ∈ s.stack ∧ m = s.num w) :
    Inv g { s with work := (v, f + 1) :: below, low := update s.low v m } := by
  have hed : g.Edge v w := mem_of_getElem? hw
  have hl : ∀ u, update s.low v m u ≤ s.low u := fun u => by
    by_cases huv : u = v
    · simpa [huv] using hle
    · simp [huv]
  have hmp : ((v, f + 1) :: below).map Prod.fst = s.work.map Prod.fst := by simp [hwr]
  refine
    { h with
      piles := ?_, low_le := fun u hu => (hl u).trans (h.low_le u hu)
      low_reached := fun u hu => ?_, followed := fun x hx u hu => ?_
      begun := fun x hx => h.begun x (by simpa [hwr] using hx)
      finished := fun u hu hg => ?_ }
  · have hp : Piles g.Edge s.low (v :: below.map Prod.fst) s.stack := by
      simpa [hwr] using h.piles
    exact hp.lower_head h.nodup (hl v) fun u hu => by simp [hu]
  · change ∃ w ∈ s.stack, s.num w = update s.low v m u ∧ _
    by_cases huv : u = v
    · subst huv
      rcases hm with rfl | ⟨hmm, rfl⟩
      · simpa using h.low_reached u hu
      · exact ⟨w, hmm, by simp, .single hed⟩
    · simpa [huv] using h.low_reached u hu
  · have hmn : s.Accounted x.1 u →
        { s with work := (v, f + 1) :: below, low := update s.low v m }.Accounted x.1 u :=
      fun ha => ha.mono rfl (fun _ hy => hy) (hl x.1)
    rcases mem_cons.mp hx with rfl | hx
    · rw [take_add_one, hw, mem_append] at hu
      rcases hu with hu | hu
      · exact hmn (h.followed (v, f) (by simp [hwr]) u hu)
      · obtain rfl : u = w := by simpa using hu
        refine ⟨hs, fun hmm => ?_⟩
        change update s.low v m v ≤ s.num u
        simpa using ha hmm
    · exact hmn (h.followed x (by simp [hwr, hx]) u hu)
  · rw [hmp] at hg
    have huv : u ≠ v := fun heq => hg (by simp [hwr, heq])
    obtain ⟨hlt, he⟩ := h.finished u hu hg
    refine ⟨by simpa [huv, num] using hlt, fun x hx => ?_⟩
    exact (he x hx).mono rfl (fun _ hy => hy) (hl u)

/-! ### A node is finished -/

theorem Inv.all_followed (h : Inv g s) (hwr : s.work = (v, f) :: below)
    (he : (edgesOf g.edges v)[f]? = none) (hw : g.Edge v w) : s.Accounted v w := by
  refine h.followed (v, f) (by simp [hwr]) w ?_
  rw [take_of_length_le (getElem?_eq_none_iff.mp he)]
  exact hw

theorem Inv.finish (h : Inv g s) {p k : Nat} (hw : s.work = (v, f) :: (p, k) :: below)
    (hen : (edgesOf g.edges v)[f]? = none) (hlt : s.low v < s.num v) :
    Inv g ({ s with work := (p, k) :: below }.lower p (s.low v)) := by
  have hv := h.mem_stack hw
  have hp : Piles g.Edge s.low (v :: p :: below.map Prod.fst) s.stack := by
    simpa [hw] using h.piles
  have hed : g.Edge p v := hp.link
  have hl : ∀ u, update s.low p (min (s.low p) (s.low v)) u ≤ s.low u := fun u => by
    by_cases hup : u = p <;> simp [hup]
  have hm : ∀ u x, s.Accounted u x →
      ({ s with work := (p, k) :: below }.lower p (s.low v)).Accounted u x :=
    fun u x ha => ha.mono rfl (fun _ hy => hy) (hl u)
  refine
    { h with
      piles := ?_, low_le := fun u hu => (hl u).trans (h.low_le u hu)
      low_reached := fun u hu => ?_
      followed := fun x hx u hu => hm x.1 u (h.followed x (by simp_all [lower]) u hu)
      begun := fun x hx => h.begun x ?_, finished := fun u hu hg => ?_ }
  · change Piles g.Edge (update s.low p (min (s.low p) (s.low v))) (p :: below.map Prod.fst) s.stack
    exact hp.finish h.nodup (by simp) (hl p) fun u hu => by simp [hu]
  · change ∃ w ∈ s.stack, s.num w = update s.low p (min (s.low p) (s.low v)) u ∧ _
    by_cases hup : u = p
    · subst hup
      rcases min_choice (s.low u) (s.low v) with hmn | hmn
      · simpa [hmn] using h.low_reached u hu
      · obtain ⟨w, hmm, hn, hr⟩ := h.low_reached v hv
        exact ⟨w, hmm, by simp [hmn, hn], .head hed hr⟩
    · simpa [hup] using h.low_reached u hu
  · rw [hw]
    exact mem_cons_of_mem _ hx
  · have hg : u ≠ p ∧ u ∉ below.map Prod.fst := by simpa [lower] using hg
    change update s.low p _ u < s.num u ∧ _
    rw [update_of_ne hg.1]
    by_cases huv : u = v
    · subst huv
      exact ⟨hlt, fun x hx => hm u x (h.all_followed hw hen hx)⟩
    · obtain ⟨hlt, he⟩ := h.finished u hu (by simp_all)
      exact ⟨hlt, fun x hx => hm u x (he x hx)⟩

/-! ### A component is taken off the stack -/

theorem popTo_eq {above rest : List Nat} (h : v ∉ above) :
    popTo v (above ++ v :: rest) = some (above ++ [v], rest) := by
  induction above with
  | nil => simp [popTo]
  | cons w above ih =>
    have hwv : w ≠ v := fun heq => h (by simp [heq])
    simp [popTo, hwv, ih fun hm => h (by simp [hm])]

/-- The stack at the node on top of the work: what lies above the node, the node, and the rest. -/
structure Split (g : Graph) (s : Search) (v : Nat) (below : List (Nat × Nat))
    (above rest : List Nat) : Prop where
  gray : s.work.map Prod.fst = v :: below.map Prod.fst
  stack : s.stack = above ++ v :: rest
  piles : Piles g.Edge s.low (below.map Prod.fst) rest
  above_low : ∀ u ∈ above, s.low v ≤ s.low u ∧ ReflTransGen g.Edge v u
  above_num : ∀ u ∈ above, s.num v < s.num u
  rest_num : ∀ u ∈ rest, s.num u < s.num v

theorem Inv.split (h : Inv g s) (hw : s.work = (v, f) :: below) :
    ∃ above rest, Split g s v below above rest := by
  have hp := h.piles
  have hs := h.sorted
  rw [hw, map_cons] at hp
  generalize hst : s.stack = stack at hp hs
  cases hp with
  | @cons _ _ above rest hb _ ha =>
    rw [pairwise_append, pairwise_cons] at hs
    obtain ⟨-, ⟨hr, -⟩, ha'⟩ := hs
    exact ⟨above, rest, by rw [hw, map_cons], hst, hb, ha, fun u hu => ha' u hu v (by simp), hr⟩

variable {v f : Nat} {below : List (Nat × Nat)} {above rest : List Nat}

theorem Split.mem_iff (hs : Split g s v below above rest) (hu : u ∈ s.stack) :
    u ∈ above ++ [v] ↔ s.num v ≤ s.num u := by
  rw [hs.stack] at hu
  constructor
  · intro hm
    rcases mem_append.mp hm with hm | hm
    · exact (hs.above_num u hm).le
    · simp [mem_singleton.mp hm]
  · intro hle
    rcases mem_append.mp hu with hu | hu
    · simp [hu]
    · rcases mem_cons.mp hu with rfl | hu
      · simp
      · exact absurd (hs.rest_num u hu) (by omega)

/-- What lies above the node on top of the work is finished. -/
theorem Inv.not_gray (h : Inv g s) (hs : Split g s v below above rest) (hu : u ∈ above) :
    u ∉ s.work.map Prod.fst := by
  obtain ⟨-, -, hd⟩ := nodup_append.mp (hs.stack ▸ h.nodup)
  intro hg
  rw [hs.gray] at hg
  rcases mem_cons.mp hg with heq | hg
  · exact hd u hu v (by simp) heq
  · exact hd u hu u (by simp [hs.piles.subset u hg]) rfl

/-- Every node of the component reaches the first: from one that is finished, a node of the
component is reached that was come to before it. -/
theorem Inv.reaches_first (h : Inv g s) (hs : Split g s v below above rest)
    (hf : s.low v = s.num v) (hu : u ∈ above ++ [v]) : ReflTransGen g.Edge u v := by
  induction hn : s.num u using Nat.strong_induction_on generalizing u with
  | _ n ih =>
    rcases mem_append.mp hu with ha | hv
    · have hm : u ∈ s.stack := by simp [hs.stack, ha]
      obtain ⟨hlt, -⟩ := h.finished u hm (h.not_gray hs ha)
      obtain ⟨w, hw, hnm, hr⟩ := h.low_reached u hm
      have hle := (hs.above_low u ha).1
      have hwm : w ∈ above ++ [v] := (hs.mem_iff hw).mpr (by omega)
      exact hr.trans (ih (s.num w) (by omega) hwm rfl)
    · rw [mem_singleton.mp hv]

/-- An edge of the component leads into it, or to a node that is in a component. -/
theorem Inv.edge_of_component (h : Inv g s) (hs : Split g s v below above rest)
    (hal : ∀ w, g.Edge v w → s.Accounted v w) (hf : s.low v = s.num v)
    (hu : u ∈ above ++ [v]) (hw : g.Edge u w) : w ∈ above ++ [v] ∨ w ∈ s.done := by
  have ha : s.Accounted u w ∧ s.low v ≤ s.low u := by
    rcases mem_append.mp hu with hab | hv
    · have hm : u ∈ s.stack := by simp [hs.stack, hab]
      obtain ⟨-, he⟩ := h.finished u hm (h.not_gray hs hab)
      exact ⟨he w hw, (hs.above_low u hab).1⟩
    grind
  obtain ⟨⟨hsm, hle⟩, hl⟩ := ha
  rcases (h.seen w).mp hsm with hm | hd
  · exact .inl ((hs.mem_iff hm).mpr (hf ▸ hl.trans (hle hm)))
  · exact .inr hd

theorem Inv.cyclic_iff (h : Inv g s) (hs : Split g s v below above rest)
    (ha : ∀ w, g.Edge v w → s.Accounted v w) (hf : s.low v = s.num v) :
    1 < (above ++ [v]).length ∨ v ∈ edgesOf g.edges v ↔
      ∃ u ∈ above ++ [v], TransGen g.Edge u u := by
  constructor
  · rintro (hl | hsl)
    · obtain ⟨u, hu⟩ : ∃ u, u ∈ above := exists_mem_of_length_pos (by simpa using hl)
      have hmm : u ∈ above ++ [v] := by simp [hu]
      have hne : u ≠ v := fun heq => by
        have hlt := hs.above_num u hu
        simp [heq] at hlt
      exact ⟨u, hmm, transGen_of_mutual hne ⟨h.reaches_first hs hf hmm, (hs.above_low u hu).2⟩⟩
    · exact ⟨v, by simp, .single hsl⟩
  · rintro ⟨u, hu, hc⟩
    obtain ⟨w, huw, hm⟩ := exists_edge_mutual hc
    have hst : u ∈ s.stack := by
      rw [hs.stack]
      grind
    rcases h.edge_of_component hs ha hf hu huw with hw | hw
    · cases hab : above with
      | nil =>
        subst hab
        obtain rfl : u = v := by simpa using hu
        obtain rfl : w = u := by simpa using hw
        exact .inr huw
      | cons a above => exact .inl (by simp)
    · exact absurd (h.condensed.mem_of_reaches hw hm.2) (h.fresh u hst)

theorem Inv.component (h : Inv g s) (hwr : s.work = (v, f) :: below)
    (hs : Split g s v below above rest) (hal : ∀ w, g.Edge v w → s.Accounted v w)
    (hf : s.low v = s.num v) :
    Inv g { s with
      work := below
      stack := rest
      onStack := fun u => s.onStack u && decide (u ∉ above ++ [v])
      components := s.components ++ [componentOf g.edges v (above ++ [v])] } := by
  have hnodup := hs.stack ▸ h.nodup
  have hst : ∀ u, u ∈ s.stack ↔ u ∈ above ++ [v] ∨ u ∈ rest := fun u => by
    simp [hs.stack, or_assoc]
  have hrs : ∀ u ∈ rest, u ∈ s.stack := fun u hu => (hst u).mpr (.inr hu)
  have ha : ∀ u ∈ rest, u ∉ above ++ [v] := fun u hu hmm => by grind
  have hm : ∀ u, u ∈ (componentOf g.edges v (above ++ [v])).members ↔ u ∈ above ++ [v] :=
    fun u => mem_mergeSort
  have hd : ∀ u, u ∈ ((s.components ++ [componentOf g.edges v (above ++ [v])]).map
      Component.members).flatten ↔ u ∈ s.done ∨ u ∈ above ++ [v] := fun u => by
    rw [map_append, flatten_append, mem_append, ← hm u]
    simp [done]
  have hmt : ∀ u ∈ above ++ [v], ReflTransGen g.Edge v u ∧ ReflTransGen g.Edge u v :=
    fun u hu => ⟨by
      rcases mem_append.mp hu with hu | hu
      · exact (hs.above_low u hu).2
      · rw [mem_singleton.mp hu], h.reaches_first hs hf hu⟩
  refine
    { piles := hs.piles, sorted := ?_, seen := fun u => ?_, fresh := fun u hu => ?_
      bound := fun u hu => h.bound u (hrs u hu), onStack := fun u => ?_
      node := fun u hu => h.node u (hrs u hu), low_le := fun u hu => h.low_le u (hrs u hu)
      low_reached := fun u hu => ?_, followed := fun x hx w hw => ?_, begun := fun x hx => ?_
      finished := fun u hu hg => ?_, condensed := ?_, nodes := fun u hu => ?_
      ascending := fun c hc => ?_, cyclic := fun c hc => ?_ }
  · have hsr := h.sorted
    rw [hs.stack, pairwise_append, pairwise_cons] at hsr
    exact hsr.2.1.2
  · rw [done, hd, h.seen u, hst u]
    tauto
  · rw [done, hd]
    exact not_or.mpr ⟨h.fresh u (hrs u hu), ha u hu⟩
  · simp only [Bool.and_eq_true, decide_eq_true_eq, h.onStack u, hst u]
    grind
  · obtain ⟨w, hw, hn, hr⟩ := h.low_reached u (hrs u hu)
    refine ⟨w, ((hst w).mp hw).resolve_left fun hmm => ?_, hn, hr⟩
    have hle := (hs.mem_iff hw).mp hmm
    have hl := h.low_le u (hrs u hu)
    have hlt := hs.rest_num u hu
    omega
  · exact (h.followed x (by simp_all) w hw).mono rfl hrs le_rfl
  · exact h.begun x (by simpa [hwr] using mem_of_mem_tail hx)
  · have hne : u ≠ v := fun heq => ha u hu (by simp [heq])
    obtain ⟨hlt, he⟩ := h.finished u (hrs u hu) (by simp_all)
    exact ⟨hlt, fun x hx => (he x hx).mono rfl hrs le_rfl⟩
  · rw [map_append]
    refine .snoc h.condensed ?_ ?_ ?_
    · intro u hu w hw
      have hu := hmt u ((hm u).mp hu)
      have hw := hmt w ((hm w).mp hw)
      exact ⟨hu.2.trans hw.1, hw.2.trans hu.1⟩
    · intro u hu w hw
      rcases h.edge_of_component hs hal hf ((hm u).mp hu) hw with hw | hw
      · exact .inl ((hm w).mpr hw)
      · exact .inr hw
    · intro u hu
      exact h.fresh u ((hst u).mpr (.inl ((hm u).mp hu)))
  · rcases (hd u).mp hu with hu | hu
    · exact h.nodes u hu
    · exact h.node u ((hst u).mpr (.inl hu))
  · rcases mem_append.mp hc with hc | hc
    · exact h.ascending c hc
    · obtain rfl := mem_singleton.mp hc
      have hle : ((above ++ [v]).mergeSort (· ≤ ·)).Pairwise (· ≤ ·) :=
        pairwise_mergeSort' (· ≤ ·) _
      have hnodup' : ((above ++ [v]).mergeSort (· ≤ ·)).Nodup := by
        rw [(mergeSort_perm _ _).nodup_iff]
        exact hnodup.sublist (by simp)
      exact hle.imp₂ (fun _ _ hle hne => lt_of_le_of_ne hle hne) hnodup'
  · rcases mem_append.mp hc with hc | hc
    · exact h.cyclic c hc
    · obtain rfl := mem_singleton.mp hc
      simp only [hm]
      rw [← h.cyclic_iff hs hal hf]
      simp [componentOf]

/-! ### A round of the loop -/

/-- How many nodes have not been come to. -/
def unseen (n : Nat) (s : Search) : Nat := ((Finset.range n).filter fun u => s.index u = none).card

/-- How many rounds the work stands for. -/
def load (edges : List (List Nat)) (s : Search) : Nat :=
  (s.work.map fun x => (edgesOf edges x.1).length - x.2 + 1).sum

/-- A round comes to a node, or leaves less work; what has been come to stays so. -/
def Ahead (g : Graph) (t s : Search) : Prop :=
  (∀ u, (s.index u).isSome → (t.index u).isSome) ∧
    (t.unseen g.edges.length < s.unseen g.edges.length ∨
      t.unseen g.edges.length = s.unseen g.edges.length ∧ t.load g.edges < s.load g.edges)

theorem openTop_eq (h : ∀ x ∈ s.work.head?, x.2 ≠ 0) : s.openTop = s := by
  rw [openTop]
  split
  next heq => exact absurd rfl (h _ (by rw [heq]; rfl))
  · rfl

theorem unseen_enter {n : Nat} (hw : s.index w = none) (hlt : w < n) :
    (s.enter w).unseen n < s.unseen n := by
  refine Finset.card_lt_card (Finset.ssubset_iff_of_subset ?_ |>.mpr ⟨w, ?_, ?_⟩)
  · intro u hu
    rw [Finset.mem_filter] at hu ⊢
    refine ⟨hu.1, ?_⟩
    by_cases huw : u = w
    · exact huw ▸ hw
    · simpa [enter, huw] using hu.2
  · simpa [hw] using hlt
  · rw [Finset.mem_filter]
    simp [enter]

theorem Inv.index_eq (h : Inv g s) (hu : u ∈ s.stack) : s.index u = some (s.num u) := by
  obtain ⟨i, hi⟩ := Option.isSome_iff_exists.mp ((h.seen u).mpr (.inl hu))
  simp [num, hi]

/-- The search is over only at the first node of a component. -/
theorem Inv.first_of_root (h : Inv g s) (hwr : s.work = [(v, f)]) : s.low v = s.num v := by
  obtain ⟨above, rest, hs⟩ := h.split hwr
  obtain rfl := hs.piles.stack_nil rfl
  obtain ⟨w, hw, hn, -⟩ := h.low_reached v (h.mem_stack hwr)
  have hle := h.low_le v (h.mem_stack hwr)
  have hm : w ∈ above ++ [v] := by simpa [hs.stack] using hw
  have hge := (hs.mem_iff hw).mp hm
  omega

theorem load_lt {w : List (Nat × Nat)} (hw : s.work = (v, f) :: w) :
    (w.map fun x => (edgesOf g.edges x.1).length - x.2 + 1).sum < s.load g.edges := by
  rw [load, hw, map_cons, sum_cons]
  omega

/-- A node is finished: its component is taken off the stack if it is the first of it. -/
theorem Inv.close (h : Inv g s) (hw : s.work = (v, f) :: below)
    (he : (edgesOf g.edges v)[f]? = none) (hf : s.low v = s.num v) :
    ∃ t, { s with work := below }.close g.edges v = some t ∧ Inv g t ∧ t.index = s.index ∧
      t.work = below := by
  obtain ⟨above, rest, hs⟩ := h.split hw
  have hv : v ∉ above := fun hm => by
    have hlt := hs.above_num v hm
    simp at hlt
  have hi := h.index_eq (h.mem_stack hw)
  refine ⟨_, ?_, h.component hw hs (fun _ => h.all_followed hw he) hf, rfl, rfl⟩
  simp [Search.close, hi, hf, hs.stack, popTo_eq hv]

theorem Inv.follow_unseen (h : Inv g s) (hwr : s.work = (v, f) :: below)
    (he : (edgesOf g.edges v)[f]? = some w) (hi : s.index w = none) :
    ∃ t, s.follow g.edges v f below = some t ∧ Inv g t.openTop ∧ Ahead g t.openTop s := by
  have hw : g.Edge v w := mem_of_getElem? he
  have hn : w ∈ g.nodes := g.closed v (h.node v (h.mem_stack hwr)) w hw
  have hl := unseen_enter (s := { s with work := (w, 0) :: (v, f + 1) :: below }) hi (g.inside w hn)
  refine ⟨{ s with work := (w, 0) :: (v, f + 1) :: below }, ?_, ?_, fun u hu => ?_, .inl hl⟩
  · simp [Search.follow, he, hi]
  · refine h.enter hi hn (by simp [hwr]) (by simpa [hwr] using hw) ?_ ?_
    · intro x hx u hu
      rcases mem_cons.mp hx with rfl | hx
      · rw [take_add_one, he, mem_append] at hu
        rcases hu with hu | hu
        · exact .inl (h.followed (v, f) (by simp [hwr]) u hu)
        · exact .inr (by simpa using hu)
      · exact .inl (h.followed x (by simp [hwr, hx]) u hu)
    · intro x hx
      rcases mem_cons.mp hx with rfl | hx
      · exact Nat.succ_ne_zero f
      · exact h.begun x (by simpa [hwr] using hx)
  · by_cases huw : u = w
    · simp [openTop, Search.enter, huw]
    · simpa [openTop, Search.enter, huw] using hu

/-- An edge to a node that has been come to: the low link is the same, or the number of that
node. -/
theorem Inv.follow_seen (h : Inv g s) (hw : s.work = (v, f) :: below) {i : Nat}
    (he : (edgesOf g.edges v)[f]? = some w) (hi : s.index w = some i) :
    ∃ t, s.follow g.edges v f below = some t ∧ Inv g t.openTop ∧ Ahead g t.openTop s := by
  have hlt : f < (edgesOf g.edges v).length := (List.getElem?_eq_some_iff.mp he).1
  have hn : s.num w = i := by simp [num, hi]
  have hin : ∀ m, m ≤ s.low v → (w ∈ s.stack → m ≤ s.num w) →
      (m = s.low v ∨ w ∈ s.stack ∧ m = s.num w) →
      Inv g { s with work := (v, f + 1) :: below, low := update s.low v m } :=
    fun m => h.advance hw he (by simp [hi])
  have hl : ∀ low, Ahead g { s with work := (v, f + 1) :: below, low } s := fun low => by
    refine ⟨fun _ hu => hu, .inr ⟨rfl, ?_⟩⟩
    simp only [load, hw, map_cons, sum_cons]
    omega
  by_cases hon : s.onStack w = true
  · have hm := (h.onStack w).mp hon
    refine ⟨{ s with work := (v, f + 1) :: below }.lower v i, ?_, ?_⟩
    · simp [Search.follow, he, hi, hon]
    · rw [openTop_eq (by simp [lower])]
      refine ⟨hin (min (s.low v) i) (Nat.min_le_left _ _) (fun _ => hn ▸ Nat.min_le_right _ _) ?_,
        hl _⟩
      grind
  · have hm : w ∉ s.stack := fun hm => hon ((h.onStack w).mpr hm)
    refine ⟨{ s with work := (v, f + 1) :: below }, ?_, ?_⟩
    · simp [Search.follow, he, hi, hon]
    · rw [openTop_eq (by simp)]
      have hs := hin (s.low v) le_rfl (fun hm' => absurd hm' hm) (.inl rfl)
      rw [update_eq_self] at hs
      exact ⟨hs, hl s.low⟩

/-- The low link of a node that another was come to from is less than the number of that one. -/
theorem Inv.low_parent_lt (h : Inv g s) {p k : Nat} (hw : s.work = (v, f) :: (p, k) :: below) :
    s.low p < s.num v ∧ p ≠ v := by
  obtain ⟨above, rest, hs⟩ := h.split hw
  have hp : p ∈ rest := hs.piles.subset p (by simp)
  have hlt := hs.rest_num p hp
  refine ⟨lt_of_le_of_lt (h.low_le p (by simp [hs.stack, hp])) hlt, fun heq => ?_⟩
  simp [heq] at hlt

theorem Inv.follow_end (h : Inv g s) (hw : s.work = (v, f) :: below)
    (he : (edgesOf g.edges v)[f]? = none) :
    ∃ t, s.follow g.edges v f below = some t ∧ Inv g t.openTop ∧ Ahead g t.openTop s := by
  have hld := load_lt (g := g) hw
  -- Where nothing has been come to, the work is less by the node that is finished.
  have hl : ∀ t : Search, t.index = s.index → t.work = below → Ahead g t s :=
    fun t hi hb => ⟨fun u hu => by rwa [hi],
      .inr ⟨by rw [unseen, unseen, hi], by rw [load, hb]; exact hld⟩⟩
  cases below with
  | nil =>
    obtain ⟨t, ht, hin, hi, hn⟩ := h.close hw he (h.first_of_root hw)
    refine ⟨t, by simpa [Search.follow, he] using ht, ?_⟩
    rw [openTop_eq (by simp [hn])]
    exact ⟨hin, hl t hi hn⟩
  | cons x below =>
    obtain ⟨p, k⟩ := x
    have hk : k ≠ 0 := h.begun (p, k) (by simp [hw])
    obtain ⟨hlw, hpv⟩ := h.low_parent_lt hw
    by_cases hf : s.low v = s.num v
    · have hs : update s.low p (min (s.low p) (s.low v)) = s.low := by
        rw [min_eq_left (by omega), update_eq_self]
      obtain ⟨t, ht, hin, hi, hc⟩ := h.close hw he hf
      refine ⟨t, by simpa [Search.follow, he, lower, hs] using ht, ?_⟩
      rw [openTop_eq (by simp [hc, hk])]
      exact ⟨hin, hl t hi hc⟩
    · have hlt := lt_of_le_of_ne (h.low_le v (h.mem_stack hw)) hf
      have hi := h.index_eq (h.mem_stack hw)
      refine ⟨{ s with work := (p, k) :: below }.lower p (s.low v), ?_, ?_⟩
      · simp [Search.follow, he, Search.close, lower, hi, hpv.symm, Ne.symm hf]
      · rw [openTop_eq (by simp [lower, hk])]
        exact ⟨h.finish hw he hlt, hl _ rfl rfl⟩

theorem Inv.step {s : Search} (h : Inv g s.openTop) (hw : s.work ≠ []) :
    ∃ t, s.step g.edges = some t ∧ Inv g t.openTop ∧ Ahead g t.openTop s.openTop := by
  have ho : s.openTop.work = s.work := by
    rw [openTop]
    split <;> rfl
  obtain ⟨⟨v, f⟩, below, hc⟩ := exists_cons_of_ne_nil hw
  rw [Search.step, ho, hc]
  have hw' : s.openTop.work = (v, f) :: below := ho.trans hc
  cases he : (edgesOf g.edges v)[f]? with
  | none => exact h.follow_end hw' he
  | some w =>
    cases hi : s.openTop.index w with
    | none => exact h.follow_unseen hw' he hi
    | some i => exact h.follow_seen hw' he hi

/-! ### The whole search -/

theorem ahead_wellFounded (g : Graph) : WellFounded (Ahead g) := by
  have hl : WellFounded (Prod.Lex (· < ·) (· < ·) : Nat × Nat → Nat × Nat → Prop) :=
    WellFounded.prod_lex Nat.lt_wfRel.wf Nat.lt_wfRel.wf
  refine Subrelation.wf (fun {t s} hts => ?_)
    (InvImage.wf (fun s : Search => (s.unseen g.edges.length, s.load g.edges)) hl)
  rcases hts.2 with hlt | ⟨heq, hlt⟩
  · exact .left _ _ hlt
  · change Prod.Lex _ _ (t.unseen _, t.load _) (s.unseen _, s.load _)
    rw [heq]
    exact .right _ hlt

theorem loop_below (edges : List (List Nat)) (fuel : Nat) (s : Search) :
    Below (s.loop edges fuel) (s.loop edges (fuel + 1)) := by
  induction fuel generalizing s with
  | zero => exact Below.none _
  | succ fuel ih =>
    rw [loop, loop]
    split
    · exact Below.refl _
    · exact (Below.refl _).bind ih

theorem searchFrom_below (edges : List (List Nat)) (fuel : Nat) (s : Search) (root : Nat) :
    Below (searchFrom edges fuel s root) (searchFrom edges (fuel + 1) s root) := by
  rw [searchFrom, searchFrom]
  split
  · exact Below.refl _
  · exact loop_below edges fuel _

theorem Inv.loop (h : Inv g s.openTop) :
    ∃ fuel t, s.loop g.edges fuel = some t ∧ Inv g t ∧ t.work = [] ∧
      ∀ u, (s.openTop.index u).isSome → (t.index u).isSome := by
  generalize hs : s.openTop = o at h
  induction o using (ahead_wellFounded g).induction generalizing s with
  | _ o ih =>
    subst hs
    by_cases hw : s.work = []
    · have ho : s.openTop = s := openTop_eq (by simp [hw])
      rw [ho] at h ⊢
      exact ⟨1, s, by simp [Search.loop, hw], h, hw, fun _ hu => hu⟩
    · obtain ⟨t, ht, hi, ha⟩ := h.step hw
      obtain ⟨fuel, t', hl, hi', hw', hsn⟩ := ih t.openTop ha rfl hi
      refine ⟨fuel + 1, t', ?_, hi', hw', fun u hu => hsn u (ha.1 u hu)⟩
      rw [Search.loop, if_neg hw, ht]
      exact hl

theorem Inv.searchFrom (h : Inv g s) (hw : s.work = []) {root : Nat} (hr : root ∈ g.nodes) :
    ∃ fuel t, searchFrom g.edges fuel s root = some t ∧ Inv g t ∧ t.work = [] ∧
      (t.index root).isSome ∧ ∀ u, (s.index u).isSome → (t.index u).isSome := by
  by_cases hs : (s.index root).isSome
  · exact ⟨0, s, by simp [Search.searchFrom, hs], h, hw, hs, fun _ hu => hu⟩
  · have hi : s.index root = none := by simpa using hs
    have he : Inv g ({ s with work := [(root, 0)] }.enter root) :=
      h.enter hi hr (by simp [hw]) (by simp [hw]) (by simp) (by simp)
    obtain ⟨fuel, t, hl, hin, hn, hm⟩ := Inv.loop (s := { s with work := [(root, 0)] }) he
    refine ⟨fuel, t, by simpa [Search.searchFrom, hs] using hl, hin, hn, ?_, fun u hu => ?_⟩
    · exact hm root (by simp [openTop, Search.enter])
    · refine hm u ?_
      by_cases hur : u = root
      · simp [openTop, Search.enter, hur]
      · simpa [openTop, Search.enter, hur] using hu

theorem Inv.foldlM (h : Inv g s) (hw : s.work = []) (roots : List Nat)
    (hrt : ∀ r ∈ roots, r ∈ g.nodes) :
    ∃ fuel t, roots.foldlM (Search.searchFrom g.edges fuel) s = some t ∧ Inv g t ∧ t.work = [] ∧
      (∀ r ∈ roots, (t.index r).isSome) ∧ ∀ u, (s.index u).isSome → (t.index u).isSome := by
  induction roots generalizing s with
  | nil => exact ⟨0, s, rfl, h, hw, by simp, fun _ hu => hu⟩
  | cons root roots ih =>
    obtain ⟨n, t, ht, hi, hn, hro, hm⟩ := h.searchFrom hw (hrt root (by simp))
    obtain ⟨m, t', ht', hi', hn', hs, hm'⟩ := ih hi hn fun r hr => hrt r (by simp [hr])
    refine ⟨n + m, t', ?_, hi', hn', fun r hr => ?_, fun u hu => hm' u (hm u hu)⟩
    · have hf := below_of_le (fun n (_ : Unit) => searchFrom_below g.edges n s root)
        (Nat.le_add_right n m) () t ht
      have hrs := below_of_le (fun n (_ : Unit) =>
        Below.foldlM (searchFrom_below g.edges n) roots t) (Nat.le_add_left m n) () t' ht'
      rw [foldlM_cons, hf]
      exact hrs
    grind

theorem inv_new (g : Graph) : Inv g new where
  piles := .nil
  sorted := .nil
  seen := by simp [new, done]
  fresh := by simp [new]
  bound := by simp [new]
  onStack := by simp [new]
  node := by simp [new]
  low_le := by simp [new]
  low_reached := by simp [new]
  followed := by simp [new]
  begun := by simp [new]
  finished := by simp [new]
  condensed := .nil
  nodes := by simp [new, done]
  ascending := by simp [new]
  cyclic := by simp [new]

end Search

open Lib.Graph in
/-- The components: each node is in exactly one, two nodes are in one if and only if each reaches
the other, a component comes after every other it has an edge to, its members ascend, and it is
cyclic if and only if a member reaches itself. -/
theorem stronglyConnected_spec (g : Graph) :
    ∃ components, (∃ fuel, ∀ more, fuel ≤ more →
        stronglyConnected more g.nodes g.edges = some components) ∧
      (components.flatMap Component.members).Nodup ∧
      (∀ v, v ∈ components.flatMap Component.members ↔ v ∈ g.nodes) ∧
      (∀ c ∈ components, ∀ u ∈ c.members, ∀ v, v ∈ c.members ↔ Mutual g.Edge u v) ∧
      (∀ (i j : Nat) (c d : Component), components[i]? = some c → components[j]? = some d → i ≠ j →
        ∀ u ∈ c.members, ∀ w ∈ d.members, g.Edge u w → j < i) ∧
      (∀ c ∈ components, c.members.Pairwise (· < ·)) ∧
      ∀ c ∈ components, c.cyclic = true ↔ ∃ u ∈ c.members, Relation.TransGen g.Edge u u := by
  obtain ⟨fuel, s, hs, hin, hwr, hsn, -⟩ := (Search.inv_new g).foldlM rfl g.nodes fun _ hr => hr
  have hst := hin.piles.stack_nil (by rw [hwr]; rfl)
  refine ⟨s.components, ⟨fuel, fun more hle => ?_⟩, ?_, fun v => ⟨fun hv => ?_, fun hv => ?_⟩, ?_,
    ?_, hin.ascending, hin.cyclic⟩
  · have hm := below_of_le (fun n (_ : Unit) =>
      Below.foldlM (Search.searchFrom_below g.edges n) g.nodes Search.new) hle () s hs
    rw [stronglyConnected, hm]
    rfl
  · rw [flatMap_def]
    refine hin.condensed.nodup_flatten fun members hmm => ?_
    obtain ⟨c, hc, rfl⟩ := mem_map.mp hmm
    exact (hin.ascending c hc).imp fun hlt => hlt.ne
  · exact hin.nodes v (by rwa [flatMap_def] at hv)
  · rw [flatMap_def]
    exact ((hin.seen v).mp (hsn v hv)).resolve_left (by simp [hst])
  · intro c hc u hu v
    exact hin.condensed.mem_iff_mutual (mem_map_of_mem hc) hu
  · intro i j c d hi hj hij u hu w hw huw
    have hle := hin.condensed.edge_le (by rw [getElem?_map, hi]; rfl)
      (by rw [getElem?_map, hj]; rfl) hu hw huw
    omega

/-- Two nodes with edges to each other, and a third that they lead to. -/
def pairAndOne : Graph := ⟨[0, 1, 2], [[1], [0, 2], []], by decide, by decide⟩

theorem stronglyConnected_spec_pairAndOne :
    ∃ components, (∃ fuel, ∀ more, fuel ≤ more →
        stronglyConnected more pairAndOne.nodes pairAndOne.edges = some components) ∧
      ∀ c ∈ components, 0 ∈ c.members → 1 ∈ c.members ∧ 2 ∉ c.members ∧ c.cyclic = true := by
  obtain ⟨components, hf, -, -, hm, -, -, hc⟩ := stronglyConnected_spec pairAndOne
  have h₀ : pairAndOne.Edge 0 1 := mem_cons_self
  have h₁ : pairAndOne.Edge 1 0 := mem_cons_self
  refine ⟨components, hf, fun c hcm h => ⟨(hm c hcm 0 h 1).mpr ⟨.single h₀, .single h₁⟩, ?_,
    (hc c hcm).mpr ⟨0, h, .tail (.single h₀) h₁⟩⟩⟩
  intro h₂
  rcases ((hm c hcm 0 h 2).mp h₂).2.cases_head with h | ⟨w, hw, -⟩
  · cases h
  · cases hw

end Silt.Typechecker.Order
