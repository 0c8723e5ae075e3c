import Mathlib.Algebra.BigOperators.Fin
import Mathlib.Algebra.Order.BigOperators.Group.Finset
import Silt.Lib.DepthFirst

/-!
# The order of modules

`ModuleGraph.order` lists the modules that an entry reaches, each after the modules it imports, and
finds the import cycles among them: a depth-first search with three marks and an explicit stack of
the modules that are open, each with the number of the import to follow next.  The imports of a
failed module are followed only where it is the entry.

## Main definitions

* `ModuleGraph`, `Import` : the modules, and what they import.
* `ModuleGraph.step`, `ModuleGraph.order` : the search.
* `ModuleGraph.cycleError` : the error of an import that closes a cycle.

## Main results

* `ModuleGraph.tracks_step` : the search is the depth-first search of `Lib.DepthFirst`.
* `ModuleGraph.order_sound` : what the order and the back edges are.
-/

namespace Silt.Session

open List Function Option

open Relation Lib.DepthFirst

/-- A place of a source text. -/
abbrev Span := Nat × Nat

/-- What an import names, of a graph of `n` modules. -/
inductive ImportResolution (n : Nat)
  | builtin
  | module (target : Fin n)
  /-- An earlier cell of the REPL, which is no edge of the graph. -/
  | cell (id : Nat)
  | unresolved

/-- One `import` of a module. -/
structure Import (n : Nat) where
  name : String
  span : Span
  resolution : ImportResolution n

/-- One module: a file of a package. -/
structure Module (n : Nat) where
  package : Nat
  packageName : String
  name : String
  /-- Whether the module failed to load or parse. -/
  failed : Bool
  imports : List (Import n)

/-- The modules that a session has read, by their numbers. -/
structure ModuleGraph (n : Nat) where
  module : Fin n → Module n

/-- An error, with its labels. -/
structure Diagnostic where
  span : Span
  message : String
  labels : List (Span × String)

/-- How far the search is with a module. -/
inductive Mark
  | unvisited
  | onStack
  | done
deriving DecidableEq

/-- The modules reachable from an entry, in the order they are checked. -/
structure Ordering (n : Nat) where
  modules : List (Fin n)
  cycles : List Diagnostic
  backEdges : Finset (Fin n × Fin n)

/-- The state of the search; the last module of the stack is the first of the list, each with the
number of the import to follow next. -/
structure State (n : Nat) where
  marks : Fin n → Mark
  ordering : Ordering n
  stack : List (Fin n × Nat)

/-- The module that an import names. -/
def Import.target {n : Nat} (i : Import n) : Option (Fin n) :=
  match i.resolution with
  | .module target => some target
  | _ => none

namespace ModuleGraph

variable {n : Nat} (g : ModuleGraph n)

variable {s : State n} {a : Search (Fin n) (Import n)}

/-- A module's name in the error of a cycle. -/
def nameOf (singlePackage : Bool) (id : Fin n) : String :=
  if singlePackage then (g.module id).name
  else (g.module id).packageName ++ "::" ++ (g.module id).name

/-- The label of the import from one module of a cycle to the next. -/
def cycleLabel (singlePackage : Bool) (source target : Fin n) : Option (Span × String) :=
  ((g.module source).imports.find? fun i => i.target == some target).map fun i =>
    (i.span, "'" ++ g.nameOf singlePackage source ++ "' imports '" ++
      g.nameOf singlePackage target ++ "' here")

/-- The error for the import `closing`, made by the last module of `chain`, that imports the first
one again. -/
def cycleError (first : Fin n) (rest : List (Fin n)) (closing : Import n) : Diagnostic :=
  let chain := first :: rest
  let singlePackage := chain.all fun m => (g.module m).package == (g.module first).package
  let names := (chain ++ [first]).map (g.nameOf singlePackage)
  { span := closing.span
    message := "circular import detected: " ++ " -> ".intercalate names ++ " (module '" ++
      closing.name ++ "' imports itself directly or indirectly)"
    labels := (chain.zip rest).filterMap fun pair => g.cycleLabel singlePackage pair.1 pair.2 }

/-- The imports of a module that the search from the entry follows. -/
def edges (entry id : Fin n) : List (Import n) :=
  if (g.module id).failed && id != entry then [] else (g.module id).imports

/-- The open modules from the target on, in the order they were opened. -/
def chainFrom (stack : List (Fin n × Nat)) (target : Fin n) : List (Fin n) :=
  let opened := stack.reverse.map Prod.fst
  opened.drop ((opened.findIdx? (· == target)).getD 0)

/-- The search at an import of the module `id` to the module `target`, its import passed. -/
def visit (s : State n) (id target : Fin n) (closing : Import n) : State n :=
  match s.marks target with
  | .unvisited =>
    { s with
      marks := update s.marks target .onStack
      stack := (target, 0) :: s.stack }
  | .onStack =>
    if (id, target) ∈ s.ordering.backEdges then s
    else
      let cycles := match chainFrom s.stack target with
        | [] => s.ordering.cycles
        | first :: rest => s.ordering.cycles ++ [g.cycleError first rest closing]
      { s with
        ordering :=
          { s.ordering with
            cycles
            backEdges := insert (id, target) s.ordering.backEdges } }
  | .done => s

/-- One round of the search; none where the stack is empty. -/
def step (entry : Fin n) (s : State n) : Option (State n) :=
  match s.stack with
  | [] => none
  | (id, next) :: stack =>
    match (g.edges entry id)[next]? with
    | none =>
      some
        { marks := update s.marks id .done
          ordering := { s.ordering with modules := s.ordering.modules ++ [id] }
          stack }
    | some i =>
      let s := { s with stack := (id, next + 1) :: stack }
      match i.resolution with
      | .module target => some (g.visit s id target i)
      | _ => some s

/-- The search before its first round. -/
def start (entry : Fin n) : State n where
  marks := update (fun _ => .unvisited) entry .onStack
  ordering := ⟨[], [], ∅⟩
  stack := [(entry, 0)]

/-- The search, for so many rounds at the most. -/
def run (entry : Fin n) : Nat → State n → State n
  | 0, s => s
  | fuel + 1, s =>
    match g.step entry s with
    | none => s
    | some s' => run entry fuel s'

/-- The rounds that a search takes at the most: one for each module and for each import. -/
def rounds : Nat := ((List.finRange n).map fun m => (g.module m).imports.length + 1).sum

/-- The modules reachable from the entry, each after the modules it imports, and the import cycles
among them. -/
def order (entry : Fin n) : Ordering n := (g.run entry g.rounds (start entry)).ordering

/-! ### The search is a depth-first search -/

/-- The module imports the other by an import that the search from the entry follows. -/
def Imports (entry : Fin n) : Fin n → Fin n → Prop := Follows (g.edges entry) Import.target

/-- The error of an import that closes a cycle. -/
def errorOf (c : Closing (Fin n) (Import n)) : Diagnostic :=
  g.cycleError c.target c.chain.tail c.edge

/-- The search is at a state of a depth-first search. -/
structure Tracks (entry : Fin n) (s : State n) (a : Search (Fin n) (Import n)) : Prop where
  done : a.done = s.ordering.modules
  stack : a.stack = s.stack.map fun frame => (frame.1, (g.edges entry frame.1).drop frame.2)
  isDone : ∀ m, s.marks m = .done ↔ m ∈ a.done
  isOpen : ∀ m, s.marks m = .onStack ↔ m ∈ a.opened
  cycles : s.ordering.cycles = a.closings.map g.errorOf
  backEdges : ∀ b c, (b, c) ∈ s.ordering.backEdges ↔ Closes a.closings b c

variable {g} {entry : Fin n}

theorem tracks_start (g : ModuleGraph n) (entry : Fin n) :
    g.Tracks entry (start entry) ⟨[], [(entry, g.edges entry entry)], []⟩ where
  done := rfl
  stack := rfl
  isDone := by
    intro m
    by_cases hm : m = entry <;> simp [start, hm]
  isOpen := by
    intro m
    by_cases hm : m = entry <;> simp [start, hm, Search.opened]
  cycles := rfl
  backEdges := by
    simp [start, Closes]

theorem Tracks.opened (h : g.Tracks entry s a) : a.opened = s.stack.map Prod.fst := by
  rw [Search.opened, h.stack, List.map_map]
  rfl

/-- The open modules from the target on are the chain of the cycle. -/
theorem chainFrom_eq {stack : List (Fin n × Nat)} {target : Fin n} {above below : List (Fin n)}
    (hs : stack.map Prod.fst = above ++ target :: below) (hnodup : (stack.map Prod.fst).Nodup) :
    chainFrom stack target = target :: above.reverse := by
  have ho : stack.reverse.map Prod.fst = below.reverse ++ target :: above.reverse := by
    rw [map_reverse, hs]
    simp
  have hb : target ∉ below := by grind
  have hi : (below.reverse ++ target :: above.reverse).findIdx? (· == target) =
      some below.length := by
    grind
  rw [chainFrom, ho, hi, getD_some, ← length_reverse, drop_left]

/-- At an import to another module, the search does what a depth-first search does. -/
theorem tracks_visit {id target : Fin n} {i : Import n} {rest : List (Import n)}
    {stack : List (Fin n × List (Import n))} {done : List (Fin n)}
    {closings : List (Closing (Fin n) (Import n))} (hi : i.target = some target)
    (h : g.Tracks entry s ⟨done, (id, rest) :: stack, closings⟩)
    (hnodup : (done ++ id :: stack.map Prod.fst).Nodup) :
    ∃ a', Step (g.edges entry) Import.target ⟨done, (id, i :: rest) :: stack, closings⟩ a' ∧
      g.Tracks entry (g.visit s id target i) a' := by
  have hop : s.stack.map Prod.fst = id :: stack.map Prod.fst := h.opened.symm
  unfold visit
  cases hmr : s.marks target with
  | unvisited =>
    have hdn : target ∉ done := fun hd => by
      rw [(h.isDone target).mpr hd] at hmr
      cases hmr
    have hon : target ∉ id :: stack.map Prod.fst := fun ho => by
      rw [(h.isOpen target).mpr ho] at hmr
      cases hmr
    refine ⟨_, .enter id i target hi hdn hon, h.done, ?_, ?_, ?_, h.cycles, h.backEdges⟩
    · rw [map_cons, ← h.stack]
      rfl
    · intro m
      show update s.marks target .onStack m = .done ↔ m ∈ done
      by_cases hm : m = target
      · subst hm
        simp [hdn]
      · rw [update_of_ne hm]
        exact h.isDone m
    · intro m
      show update s.marks target .onStack m = .onStack ↔ m ∈ target :: id :: stack.map Prod.fst
      by_cases hm : m = target
      · subst hm
        simp
      · rw [update_of_ne hm, h.isOpen m]
        simp [Search.opened, hm]
  | onStack =>
    obtain ⟨above, below, hs⟩ := append_of_mem ((h.isOpen target).mp hmr)
    by_cases hbc : (id, target) ∈ s.ordering.backEdges
    · rw [if_pos hbc]
      refine ⟨_, .pass id i ?_, h⟩
      intro b hb
      obtain rfl := Option.some.inj (hi.symm.trans hb)
      exact .inr ((h.backEdges id target).mp hbc)
    · rw [if_neg hbc]
      have hch : chainFrom s.stack target = target :: above.reverse := by
        apply chainFrom_eq (hop.trans hs)
        rw [hop]
        exact (nodup_append.mp hnodup).2.1
      refine ⟨_, .close id i target above below hi hs
        (fun hc => hbc ((h.backEdges id target).mpr hc)), ?_⟩
      refine ⟨h.done, h.stack, h.isDone, h.isOpen, ?_, ?_⟩
      · rw [hch, h.cycles, map_append]
        rfl
      · intro b c
        rw [Finset.mem_insert, h.backEdges]
        constructor
        · rintro (heq | hc)
          · obtain ⟨rfl, rfl⟩ := Prod.mk.inj heq
            exact closes_append_singleton closings ⟨b, c, _, i⟩
          · exact hc.append
        · rintro ⟨d, hd, rfl, rfl⟩
          rcases mem_append.mp hd with hd | hd
          · exact .inr ⟨d, hd, rfl, rfl⟩
          · rw [mem_singleton.mp hd]
            exact .inl rfl
  | done =>
    refine ⟨_, .pass id i ?_, h⟩
    intro b hb
    obtain rfl := Option.some.inj (hi.symm.trans hb)
    exact .inl ((h.isDone target).mp hmr)

theorem tracks_finish {id : Fin n} {stack : List (Fin n × List (Import n))}
    {stack' : List (Fin n × Nat)} {done : List (Fin n)}
    {closings : List (Closing (Fin n) (Import n))}
    (h : g.Tracks entry s ⟨done, (id, []) :: stack, closings⟩)
    (hs : stack = stack'.map fun fr => (fr.1, (g.edges entry fr.1).drop fr.2))
    (hnodup : (done ++ id :: stack.map Prod.fst).Nodup) :
    g.Tracks entry
      { marks := update s.marks id .done
        ordering := { s.ordering with modules := s.ordering.modules ++ [id] }
        stack := stack' } ⟨done ++ [id], stack, closings⟩ := by
  have hid : id ∉ stack.map Prod.fst := (nodup_cons.mp (nodup_append.mp hnodup).2.1).1
  refine ⟨congrArg (· ++ [id]) h.done, hs, ?_, ?_, h.cycles, h.backEdges⟩
  · intro m
    show update s.marks id .done m = .done ↔ m ∈ done ++ [id]
    by_cases hm : m = id
    · subst hm
      simp
    · rw [update_of_ne hm, h.isDone m]
      simp [hm]
  · intro m
    show update s.marks id .done m = .onStack ↔ m ∈ stack.map Prod.fst
    by_cases hm : m = id
    · subst hm
      simpa using hid
    · rw [update_of_ne hm, h.isOpen m]
      simp [Search.opened, hm]

theorem tracks_step {s' : State n} (h : g.Tracks entry s a) (hnodup : (a.done ++ a.opened).Nodup)
    (hs : g.step entry s = some s') :
    ∃ a', Step (g.edges entry) Import.target a a' ∧ g.Tracks entry s' a' := by
  unfold step at hs
  split at hs
  · cases hs
  · rename_i id next stack hst
    obtain ⟨done, astack, closings⟩ := a
    obtain rfl : astack = (id, (g.edges entry id).drop next) ::
        stack.map fun fr => (fr.1, (g.edges entry fr.1).drop fr.2) := by
      simpa [hst] using h.stack
    split at hs
    · rename_i hn
      cases hs
      rw [drop_eq_nil_of_le (getElem?_eq_none_iff.mp hn)] at h hnodup ⊢
      exact ⟨_, .finish id, tracks_finish h rfl hnodup⟩
    · rename_i i hsm
      obtain ⟨hlt, hi⟩ := List.getElem?_eq_some_iff.mp hsm
      have hd : (g.edges entry id).drop next = i :: (g.edges entry id).drop (next + 1) := by
        rw [List.drop_eq_getElem_cons hlt, hi]
      rw [hd] at h hnodup ⊢
      -- The state with the import passed.
      have hp : g.Tracks entry { s with stack := (id, next + 1) :: stack }
          ⟨done, (id, (g.edges entry id).drop (next + 1)) ::
            stack.map fun fr => (fr.1, (g.edges entry fr.1).drop fr.2), closings⟩ :=
        ⟨h.done, rfl, h.isDone, h.isOpen, h.cycles, h.backEdges⟩
      split at hs
      · rename_i target hr
        cases hs
        exact tracks_visit (by rw [Import.target, hr]) hp hnodup
      · rename_i hr
        cases hs
        refine ⟨_, .pass id i ?_, hp⟩
        intro b hb
        unfold Import.target at hb
        grind

theorem stack_eq_nil_of_step (h : g.step entry s = none) : s.stack = [] := by
  unfold step at h
  grind

theorem tracks_run (fuel : Nat) (h : g.Tracks entry s a)
    (hsn : Sound (g.edges entry) Import.target entry a) (hf : a.weight (g.edges entry) ≤ fuel) :
    ∃ a', Sound (g.edges entry) Import.target entry a' ∧ g.Tracks entry (g.run entry fuel s) a' ∧
      (g.run entry fuel s).stack = [] := by
  induction fuel generalizing s a with
  | zero =>
    refine ⟨a, hsn, h, ?_⟩
    -- An open module weighs something.
    cases hst : s.stack with
    | nil => rw [run, hst]
    | cons fr stack =>
      have hw : (a.stack.map fun fr => fr.2.length + 1).sum = 0 := by
        have := Nat.le_zero.mp hf
        unfold Search.weight at this
        omega
      rw [h.stack, hst, map_cons, map_cons, sum_cons] at hw
      omega
  | succ fuel ih =>
    rw [run]
    cases hs : g.step entry s with
    | none => exact ⟨a, hsn, h, stack_eq_nil_of_step hs⟩
    | some s' =>
      obtain ⟨a', hsp, ht⟩ := tracks_step h hsn.nodup hs
      have hw := hsp.weight
      exact ih ht (hsn.step hsp) (by omega)

theorem length_edges_le (g : ModuleGraph n) (entry m : Fin n) :
    (g.edges entry m).length ≤ (g.module m).imports.length := by
  unfold edges
  split
  · exact Nat.zero_le _
  · exact Nat.le_refl _

theorem weight_start_le (g : ModuleGraph n) (entry : Fin n) :
    (Search.mk [] [(entry, g.edges entry entry)] []).weight (g.edges entry) ≤ g.rounds := by
  have hle : ∑ m, ((g.edges entry m).length + 1) ≤ g.rounds := by
    exact Finset.sum_le_sum fun m _ => Nat.succ_le_succ (length_edges_le g entry m)
  have hs : Finset.univ \ ([] ++ (Search.mk [] [(entry, g.edges entry entry)]
      ([] : List (Closing (Fin n) (Import n)))).opened).toFinset = Finset.univ.erase entry := by
    ext m
    simp [Search.opened]
  have hsm := Finset.add_sum_erase Finset.univ (fun m => (g.edges entry m).length + 1)
    (Finset.mem_univ entry)
  simp only [Search.weight, hs, map_cons, map_nil, sum_cons, sum_nil]
  omega

/-- The search ends in the state of a depth-first search that has ended. -/
theorem exists_tracks_order (g : ModuleGraph n) (entry : Fin n) :
    (g.run entry g.rounds (start entry)).stack = [] ∧
      ∃ closings : List (Closing (Fin n) (Import n)),
        Sound (g.edges entry) Import.target entry ⟨(g.order entry).modules, [], closings⟩ ∧
        (g.order entry).cycles = closings.map g.errorOf ∧
        ∀ a b, (a, b) ∈ (g.order entry).backEdges ↔ Closes closings a b := by
  obtain ⟨⟨done, stack, closings⟩, hs, ht, hn⟩ :=
    tracks_run g.rounds (tracks_start g entry) (Sound.start _ _ entry) (weight_start_le g entry)
  obtain rfl : done = (g.order entry).modules := ht.done
  obtain rfl : stack = [] := by simpa [hn] using ht.stack
  exact ⟨hn, closings, hs, ht.cycles, ht.backEdges⟩

end ModuleGraph

end Silt.Session
