import Mathlib.Algebra.BigOperators.Group.Finset.Basic
import Mathlib.Algebra.Ring.Nat
import Mathlib.Data.Fintype.Basic

/-!
# Depth-first search with an explicit stack

A search goes along the edges of a graph from an entry.  Its stack holds each open node with the
edges that it has left; a node with none left is done.  An edge to an open node closes a cycle: it
is recorded once for each pair of nodes, with the chain of open nodes from its target to its source.

## Main definitions

* `Follows` : one node has an edge to another.
* `Search`, `Step` : the state of a search, and what one step does.
* `Sound` : what holds of the state at every step.

## Main results

* `Sound.step` : a step keeps a state sound.
* `Sound.mem_done_iff`, `Sound.before` : a search that has ended lists the nodes that the entry
  reaches, each after those it has an edge to, but for the edges that close a cycle.
* `Sound.exists_closing_iff` : a closing edge is recorded just where there is a cycle.
-/

namespace Lib.DepthFirst

open List

open Relation

variable {α ι : Type}

/-- An edge that closes a cycle, with the open nodes from its target to its source. -/
structure Closing (α ι : Type) where
  source : α
  target : α
  chain : List α
  edge : ι

variable {closings : List (Closing α ι)}

/-- The state of a search: the nodes that are done, in that order; the open nodes, the last one
first, each with the edges it has left; the closing edges. -/
structure Search (α ι : Type) where
  done : List α
  stack : List (α × List ι)
  closings : List (Closing α ι)

/-- The open nodes, the last one first. -/
def Search.opened (s : Search α ι) : List α := s.stack.map Prod.fst

/-- The closing edge from one node to another is recorded. -/
def Closes (closings : List (Closing α ι)) (a b : α) : Prop :=
  ∃ c ∈ closings, c.source = a ∧ c.target = b

section Graph

variable (edges : α → List ι) (target : ι → Option α)

/-- The node has an edge to the other. -/
def Follows (a b : α) : Prop := ∃ i ∈ edges a, target i = some b

/-- What one step of a search does. -/
inductive Step : Search α ι → Search α ι → Prop
  /-- A node with no edge left is done. -/
  | finish {done stack closings} (a : α) :
      Step ⟨done, (a, []) :: stack, closings⟩ ⟨done ++ [a], stack, closings⟩
  /-- An edge to no node, to one that is done, or one that is recorded, is passed by. -/
  | pass {done stack closings rest} (a : α) (i : ι)
      (h : ∀ b, target i = some b → b ∈ done ∨ Closes closings a b) :
      Step ⟨done, (a, i :: rest) :: stack, closings⟩ ⟨done, (a, rest) :: stack, closings⟩
  /-- An edge to a new node opens it. -/
  | enter {done stack closings rest} (a : α) (i : ι) (b : α) (hb : target i = some b)
      (hdone : b ∉ done) (hopen : b ∉ a :: stack.map Prod.fst) :
      Step ⟨done, (a, i :: rest) :: stack, closings⟩
        ⟨done, (b, edges b) :: (a, rest) :: stack, closings⟩
  /-- An edge to an open node is recorded. -/
  | close {done stack closings rest} (a : α) (i : ι) (b : α) (above below : List α)
      (hb : target i = some b) (hsplit : a :: stack.map Prod.fst = above ++ b :: below)
      (hnew : ¬ Closes closings a b) :
      Step ⟨done, (a, i :: rest) :: stack, closings⟩
        ⟨done, (a, rest) :: stack, closings ++ [⟨a, b, b :: above.reverse, i⟩]⟩

/-- Of each open node, the edges that are not left lead to a node that is done, close a cycle, or
lead to the node that was opened from it. -/
def Explored (done : List α) (closings : List (Closing α ι)) :
    Option α → List (α × List ι) → Prop
  | _, [] => True
  | above, (a, rest) :: stack =>
    (∃ passed, edges a = passed ++ rest ∧ ∀ i ∈ passed, ∀ b, target i = some b →
      b ∈ done ∨ Closes closings a b ∨ above = some b) ∧ Explored done closings (some a) stack

/-- The closing edge is one, and its chain goes from its target to its source. -/
structure Closing.Real (c : Closing α ι) : Prop where
  mem : c.edge ∈ edges c.source
  leads : target c.edge = some c.target
  chain : c.chain.IsChain (Follows edges target)
  head : c.chain.head? = some c.target
  last : c.chain.getLast? = some c.source

/-- What holds at every step of a search from the entry. -/
structure Sound (entry : α) (s : Search α ι) : Prop where
  nodup : (s.done ++ s.opened).Nodup
  root : s.opened.getLast? = some entry ∨ s.opened = [] ∧ s.done.getLast? = some entry
  path : s.opened.IsChain fun a b => Follows edges target b a
  reached : ∀ a ∈ s.done ++ s.opened, ReflTransGen (Follows edges target) entry a
  finished : ∀ pre a post, s.done = pre ++ a :: post → ∀ b, Follows edges target a b →
    b ∈ pre ∨ Closes s.closings a b
  explored : Explored edges target s.done s.closings none s.stack
  real : ∀ c ∈ s.closings, c.Real edges target ∧ c.source ∈ s.done ++ s.opened ∧
    c.target ∈ s.done ++ s.opened
  once : (s.closings.map fun c => (c.source, c.target)).Nodup

end Graph

variable {edges : α → List ι} {target : ι → Option α} {entry : α}

theorem Closes.append {more : List (Closing α ι)} {a b : α} (h : Closes closings a b) :
    Closes (closings ++ more) a b := by
  obtain ⟨c, hc, hab⟩ := h
  exact ⟨c, mem_append_left _ hc, hab⟩

theorem closes_append_singleton (closings : List (Closing α ι)) (c : Closing α ι) :
    Closes (closings ++ [c]) c.source c.target :=
  ⟨c, mem_append_right _ mem_cons_self, rfl, rfl⟩

/-! ### What is explored stays so -/

theorem Explored.mono {done done' : List α} {closings' : List (Closing α ι)}
    (hdn : ∀ b ∈ done, b ∈ done') (hcl : ∀ a b, Closes closings a b → Closes closings' a b)
    {stack : List (α × List ι)} {above above' : Option α}
    (hab : ∀ b, above = some b → b ∈ done' ∨ above' = some b)
    (h : Explored edges target done closings above stack) :
    Explored edges target done' closings' above' stack := by
  induction stack generalizing above above' with
  | nil => trivial
  | cons frame stack ih =>
    obtain ⟨⟨passed, heq, hp⟩, hr⟩ := h
    refine ⟨⟨passed, heq, ?_⟩, ih (fun b hb => .inr hb) hr⟩
    grind

theorem Explored.take {done : List α} {closings' : List (Closing α ι)} {a : α} {i : ι}
    {rest : List ι} {stack : List (α × List ι)} {above : Option α}
    (hcl : ∀ a b, Closes closings a b → Closes closings' a b)
    (hi : ∀ b, target i = some b → b ∈ done ∨ Closes closings' a b ∨ above = some b)
    (h : Explored edges target done closings none ((a, i :: rest) :: stack)) :
    Explored edges target done closings' above ((a, rest) :: stack) := by
  obtain ⟨⟨passed, heq, hp⟩, hr⟩ := h
  refine ⟨⟨passed ++ [i], by rw [heq, append_assoc]; rfl, ?_⟩,
    hr.mono (fun b hb => hb) hcl fun b hb => .inr hb⟩
  grind

/-- The chain of a closing edge and the edge make a cycle. -/
theorem Closing.Real.cycle {c : Closing α ι} (h : c.Real edges target) :
    TransGen (Follows edges target) c.target c.target := by
  have hls : Follows edges target c.source c.target := ⟨c.edge, h.mem, h.leads⟩
  obtain ⟨rest, hch⟩ : ∃ rest, c.chain = c.target :: rest := by
    cases hc : c.chain with
    | nil => simpa [hc] using h.head
    | cons b rest =>
      have := h.head
      rw [hc] at this
      exact ⟨rest, by rw [Option.some.inj this]⟩
  have hp : ReflTransGen (Follows edges target) c.target c.source := by
    have hne : c.target :: rest ≠ [] := by simp
    have := relationReflTransGen_of_exists_isChain_cons rest (hch ▸ h.chain) (b := c.source)
    apply this
    have hl := h.last
    grind
  exact TransGen.tail' hp hls

namespace Sound

variable {a b : α}

theorem mem_edges {done : List α} {closings : List (Closing α ι)} {i : ι} {rest : List ι}
    {stack : List (α × List ι)}
    (h : Explored edges target done closings none ((a, i :: rest) :: stack)) : i ∈ edges a := by
  obtain ⟨⟨passed, heq, -⟩, -⟩ := h
  rw [heq]
  exact mem_append_right _ mem_cons_self

/-! ### One step -/

theorem start (edges : α → List ι) (target : ι → Option α) (entry : α) :
    Sound edges target entry ⟨[], [(entry, edges entry)], []⟩ where
  nodup := nodup_singleton entry
  root := .inl rfl
  path := isChain_singleton entry
  reached := by
    intro a ha
    obtain rfl := mem_singleton.mp ha
    exact .refl
  finished := by
    intro pre a post h
    exact absurd h (by simp)
  explored := ⟨⟨[], rfl, by simp⟩, trivial⟩
  real := by simp
  once := nodup_nil

theorem finish {done : List α} {stack : List (α × List ι)} {closings : List (Closing α ι)}
    (h : Sound edges target entry ⟨done, (a, []) :: stack, closings⟩) :
    Sound edges target entry ⟨done ++ [a], stack, closings⟩ := by
  have ho : (Search.mk done ((a, []) :: stack) closings).opened = a :: stack.map Prod.fst := rfl
  have hsm : done ++ [a] ++ stack.map Prod.fst = done ++ a :: stack.map Prod.fst := by simp
  obtain ⟨⟨passed, heq, hp⟩, hrs⟩ := h.explored
  rw [append_nil] at heq
  refine ⟨?_, ?_, ?_, ?_, ?_, ?_, ?_, h.once⟩
  · exact hsm ▸ h.nodup
  · rcases h.root with hr | ⟨hn, -⟩
    · rw [ho] at hr
      cases hst : stack with
      | nil =>
        rw [hst] at hr
        right
        refine ⟨rfl, ?_⟩
        rw [getLast?_concat]
        exact hr
      | cons frame stack' =>
        rw [hst, map_cons, getLast?_cons_cons] at hr
        exact .inl hr
    · rw [ho] at hn
      cases hn
  · exact (isChain_cons.mp h.path).2
  · intro b hb
    exact h.reached b (hsm ▸ hb)
  · intro pre b post hsp c hbc
    rcases eq_nil_or_concat post with rfl | ⟨post', last, rfl⟩
    · obtain ⟨rfl, hb⟩ := append_inj' hsp rfl
      obtain rfl := head_eq_of_cons_eq hb
      obtain ⟨i, hi, hic⟩ := hbc
      grind
    · have hsp' : done ++ [a] = (pre ++ b :: post') ++ [last] := by simpa using hsp
      obtain ⟨hdn, -⟩ := append_inj' hsp' rfl
      exact h.finished pre b post' hdn c hbc
  · apply hrs.mono (fun b hb => mem_append_left _ hb) (fun _ _ hc => hc)
    grind
  · intro c hc
    obtain ⟨hrl, hs, ht⟩ := h.real c hc
    exact ⟨hrl, hsm ▸ hs, hsm ▸ ht⟩

/-- The open nodes from one on, the other way round, follow one another. -/
theorem chain_of_path {opened above below : List α}
    (h : opened.IsChain fun a b => Follows edges target b a) (hsp : opened = above ++ b :: below) :
    (b :: above.reverse).IsChain (Follows edges target) := by
  have hs : (above ++ [b]).IsChain fun a b => Follows edges target b a := by
    have ha : opened = (above ++ [b]) ++ below := by rw [hsp, append_assoc]; rfl
    rw [ha] at h
    exact h.left_of_append
  have := isChain_reverse.mpr hs
  rwa [reverse_append] at this

theorem step {s s' : Search α ι} (h : Sound edges target entry s) (hs : Step edges target s s') :
    Sound edges target entry s' := by
  cases hs with
  | finish a => exact h.finish
  | pass a i hi =>
    refine ⟨h.nodup, h.root, h.path, h.reached, h.finished, ?_, h.real, h.once⟩
    apply h.explored.take (fun _ _ hc => hc)
    intro b hb
    exact (hi b hb).imp_right .inl
  | @enter done stack closings rest a i b hb hd ho =>
    have he : Follows edges target a b := ⟨i, mem_edges h.explored, hb⟩
    have hm {c : α} (hc : c ∈ done ++ a :: stack.map Prod.fst) :
        c ∈ done ++ b :: a :: stack.map Prod.fst := by
      grind
    refine ⟨?_, ?_, ?_, ?_, h.finished, ?_, ?_, h.once⟩
    · refine nodup_middle.mpr (nodup_cons.mpr ⟨?_, h.nodup⟩)
      intro hb'
      exact (mem_append.mp hb').elim hd ho
    · rcases h.root with hr | ⟨hn, -⟩
      · exact .inl hr
      · cases hn
    · exact isChain_cons_cons.mpr ⟨he, h.path⟩
    · intro c hc
      rcases mem_append.mp hc with hc | hc
      · exact h.reached c (mem_append_left _ hc)
      · rcases mem_cons.mp hc with rfl | hc
        · exact (h.reached a (mem_append_right _ mem_cons_self)).tail he
        · exact h.reached c (mem_append_right _ hc)
    · refine ⟨⟨[], rfl, by simp⟩, h.explored.take (fun _ _ hc => hc) ?_⟩
      intro c hc
      exact .inr (.inr (hb.symm.trans hc))
    · intro c hc
      obtain ⟨hrl, hs, ht⟩ := h.real c hc
      exact ⟨hrl, hm hs, hm ht⟩
  | @close done stack closings rest a i b above below hb hsp hnew =>
    have hcl := closes_append_singleton closings ⟨a, b, b :: above.reverse, i⟩
    refine ⟨h.nodup, h.root, h.path, h.reached, ?_, ?_, ?_, ?_⟩
    · intro pre c post hd d hcd
      exact (h.finished pre c post hd d hcd).imp_right Closes.append
    · apply h.explored.take fun _ _ hc => hc.append
      grind
    · intro c hc
      rcases mem_append.mp hc with hc | hc
      · exact h.real c hc
      · obtain rfl := mem_singleton.mp hc
        have hbm : b ∈ a :: stack.map Prod.fst := by
          rw [hsp]
          exact mem_append_right _ mem_cons_self
        refine ⟨⟨mem_edges h.explored, hb, chain_of_path h.path hsp, rfl, ?_⟩,
          mem_append_right _ mem_cons_self, mem_append_right _ hbm⟩
        cases above with
        | nil =>
          obtain rfl : a = b := head_eq_of_cons_eq hsp
          rfl
        | cons a' above' => grind
    · rw [map_append, map_cons, map_nil]
      refine nodup_append.mpr ⟨h.once, nodup_singleton _, ?_⟩
      intro p hp q hq heq
      obtain ⟨c, hc, rfl⟩ := mem_map.mp hp
      rw [mem_singleton.mp hq] at heq
      exact hnew ⟨c, hc, congrArg Prod.fst heq, congrArg Prod.snd heq⟩

/-! ### A search that has ended -/

variable {done : List α} {closings : List (Closing α ι)}

section

variable (h : Sound edges target entry ⟨done, [], closings⟩)

include h

theorem getLast?_done : done.getLast? = some entry := by
  rcases h.root with hr | ⟨-, hr⟩
  · cases hr
  · exact hr

theorem nodup_done : done.Nodup := by
  have := h.nodup
  rwa [Search.opened, map_nil, append_nil] at this

/-- Each node comes after those it has an edge to, but for the edges that close a cycle. -/
theorem before (ha : a ∈ done) (hab : Follows edges target a b) :
    (∃ pre mid post, done = pre ++ b :: mid ++ a :: post) ∨ Closes closings a b := by
  obtain ⟨pre, post, rfl⟩ := append_of_mem ha
  rcases h.finished pre a post rfl b hab with hb | hc
  · left
    obtain ⟨pre', mid, rfl⟩ := append_of_mem hb
    exact ⟨pre', mid, post, rfl⟩
  · exact .inr hc

theorem mem_done_of_follows (ha : a ∈ done) (hab : Follows edges target a b) : b ∈ done := by
  rcases h.before ha hab with ⟨pre, mid, post, rfl⟩ | ⟨c, hc, -, rfl⟩
  · simp
  · have := (h.real c hc).2.2
    rwa [Search.opened, map_nil, append_nil] at this

theorem mem_done_iff (a : α) : a ∈ done ↔ ReflTransGen (Follows edges target) entry a := by
  constructor
  · intro ha
    exact h.reached a (mem_append_left _ ha)
  · intro hr
    induction hr with
    | refl => exact mem_of_getLast? h.getLast?_done
    | tail _ hab ih => exact h.mem_done_of_follows ih hab

end

/-- Without a closing edge, what a node reaches comes before it. -/
theorem before_of_transGen (h : Sound edges target entry ⟨done, [], []⟩) (ha : a ∈ done)
    (hab : TransGen (Follows edges target) a b) :
    ∃ pre mid post, done = pre ++ b :: mid ++ a :: post := by
  induction hab with
  | single hab =>
    rcases h.before ha hab with hp | ⟨c, hc, -⟩
    · exact hp
    · cases hc
  | @tail b c _ hbc ih =>
    obtain ⟨pre, mid, post, rfl⟩ := ih
    rcases h.finished pre b (mid ++ a :: post) (by simp) c hbc with hc | ⟨c, hc, -⟩
    · obtain ⟨pre', mid', rfl⟩ := append_of_mem hc
      exact ⟨pre', mid' ++ b :: mid, post, by simp⟩
    · cases hc

/-- A closing edge is recorded just where what the entry reaches has a cycle. -/
theorem exists_closing_iff (h : Sound edges target entry ⟨done, [], closings⟩) :
    closings ≠ [] ↔
      ∃ a, ReflTransGen (Follows edges target) entry a ∧ TransGen (Follows edges target) a a := by
  constructor
  · intro hne
    obtain ⟨c, hc⟩ := exists_mem_of_ne_nil _ hne
    obtain ⟨hrl, -, ht⟩ := h.real c hc
    exact ⟨c.target, h.reached _ ht, hrl.cycle⟩
  · rintro ⟨a, hr, hcy⟩ rfl
    have ha := (h.mem_done_iff a).mpr hr
    obtain ⟨pre, mid, post, hd⟩ := h.before_of_transGen ha hcy
    have hnodup := h.nodup_done
    grind

end Sound

/-! ### How long a search goes on -/

section Finite

variable [Fintype α] [DecidableEq α]

/-- The steps that a search has left at the most: one for each edge and each node to come. -/
def Search.weight (edges : α → List ι) (s : Search α ι) : Nat :=
  (∑ a ∈ Finset.univ \ (s.done ++ s.opened).toFinset, ((edges a).length + 1)) +
    (s.stack.map fun frame => frame.2.length + 1).sum

theorem Step.weight {s s' : Search α ι} (h : Step edges target s s') :
    s'.weight edges + 1 = s.weight edges := by
  cases h with
  | @finish done stack closings a =>
    have hs : done ++ [a] ++ stack.map Prod.fst = done ++ a :: stack.map Prod.fst := by simp
    simp only [Search.weight, Search.opened, map_cons, sum_cons, hs, length_nil]
    omega
  | pass a i h =>
    simp only [Search.weight, Search.opened, map_cons, sum_cons, length_cons]
    omega
  | @enter done stack closings rest a i b hb hd ho =>
    have hnew : b ∉ (done ++ a :: stack.map Prod.fst).toFinset := by
      simp_all
    have hst : Finset.univ \ (done ++ b :: a :: stack.map Prod.fst).toFinset =
        (Finset.univ \ (done ++ a :: stack.map Prod.fst).toFinset).erase b := by
      ext c
      simp_all
    have hm : b ∈ Finset.univ \ (done ++ a :: stack.map Prod.fst).toFinset :=
      Finset.mem_sdiff.mpr ⟨Finset.mem_univ b, hnew⟩
    have hsm := Finset.add_sum_erase _ (fun c => (edges c).length + 1) hm
    simp only [Search.weight, Search.opened, map_cons, sum_cons, length_cons, hst]
    omega
  | close a i b above below hb hsp hnew =>
    simp only [Search.weight, Search.opened, map_cons, sum_cons, length_cons]
    omega

end Finite

end Lib.DepthFirst
