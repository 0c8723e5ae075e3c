import Silt.Lib.Breadth
import Silt.Lib.Earliest

/-!
# The order of a module's top-level `let`s

`init_order` takes the graph of what the `let`s, functions and methods of a module mention, and
orders the `let`s: each after those it needs, and of those that nothing orders the first written
first.  A plain value runs nothing when it is initialised and needs the `let`s it reads; any other
`let` needs every `let` its initialiser reaches.  A `let` that needs itself has no place: the
`let`s on the way round are reported, and the others do not wait for them.

The nodes are numbered in the order they are written in, with the code outside the module as node
zero.  A `let` is initialised once all it needs is in; what it needs and is reported on a ring does
not count.

## Main definitions

* `plainValue` : whether initialising runs nothing, and the names that are read.
* `needsOf` : the `let`s a `let` needs, each with the way to it.
* `inRing` : the `let`s that are reported.
* `initOrder` : the order.
* `Need` : what a `let` needs, as a relation.

## Main results

* `mem_needs_iff` : the search finds what is needed.
* `mem_inRing_of_need`, `of_mem_inRing` : the `let`s that need themselves are reported, and what
  else is.
* `initOrder_spec` : the order holds every `let` once, each after those it needs that are not
  reported, and is the least such order.
-/

namespace Silt.Typechecker.InitOrder

open List Function

open Lib.Graph Lib.Precedence Relation

/-! ### Plain values -/

/-- An element of a list literal. -/
inductive ListElem (E : Type)
  | single (e : E)
  | spread (e : E)

/-- An initialiser, as far as it decides what its `let` needs.  A name holds the node it resolves
to, if it is one of the module's. -/
inductive Expr (N : Type)
  /-- a number, a string, a boolean or the unit -/
  | literal
  | lambda
  | ident (res : Option N)
  /-- `m.f`; `known` says that it names a definition, or a method through its trait or type -/
  | fieldAccess (res : Option N) (known : Bool)
  | tuple (elems : List (Expr N))
  | setLit (elems : List (Expr N))
  | list (elems : List (ListElem (Expr N)))
  | map (entries : List (Expr N × Expr N))
  /-- a record, or an anonymous record without a spread -/
  | record (fields : List (Expr N))
  /-- `variant` says that the callee is a variant of an enum -/
  | call (variant : Bool) (callee : Option N) (args : List (Expr N))
  /-- any other expression -/
  | other

variable {N : Type}

mutual

/-- The value restriction's syntactic values. -/
def isSyntacticValue : Expr N → Bool
  | .literal | .lambda | .ident _ => true
  | .fieldAccess _ known => known
  | .tuple elems => areSyntacticValues elems
  | .list elems => elemsAreSyntacticValues elems
  | .record fields => areSyntacticValues fields
  | .call variant _ args => variant && areSyntacticValues args
  | .setLit _ | .map _ | .other => false

def areSyntacticValues : List (Expr N) → Bool
  | [] => true
  | e :: es => isSyntacticValue e && areSyntacticValues es

def elemsAreSyntacticValues : List (ListElem (Expr N)) → Bool
  | [] => true
  | .single e :: es => isSyntacticValue e && elemsAreSyntacticValues es
  | .spread _ :: _ => false

end

mutual

/-- Whether initialising a `let` with the value runs nothing, and then the names it reads outside
closures. -/
def plainValue : Expr N → Option (List (Option N))
  | .ident res => some [res]
  | .fieldAccess res known => if known then some [res] else none
  | .tuple elems => plainValues elems
  | .setLit elems => plainValues elems
  | .list elems => plainElems elems
  | .map entries => plainEntries entries
  | .record fields => plainValues fields
  | .call variant callee args =>
    if variant && areSyntacticValues args then (plainValues args).map (callee :: ·) else none
  | .literal | .lambda => some []
  | .other => none

def plainValues : List (Expr N) → Option (List (Option N))
  | [] => some []
  | e :: es => do return (← plainValue e) ++ (← plainValues es)

def plainElems : List (ListElem (Expr N)) → Option (List (Option N))
  | [] => some []
  | .single e :: es => do return (← plainValue e) ++ (← plainElems es)
  | .spread _ :: _ => none

def plainEntries : List (Expr N × Expr N) → Option (List (Option N))
  | [] => some []
  | (key, value) :: es => do
    return (← plainValue key) ++ (← plainValue value) ++ (← plainEntries es)

end

/-! ### What a `let` needs -/

/-- A `let`, a function or a method: whether it is a `let`, what it runs, and the nodes its
expression mentions. -/
structure Node (k : Nat) where
  isLet : Bool
  body : Option (Expr (Fin k)) := none
  edges : List (Fin k) := []

variable {k : Nat} (nodes : Fin k → Node k)

variable {n m start p d : Fin k} {reads : List (Option (Fin k))}
  {rest popped ring order : List (Fin k)} {notes : List (Fin k × Fin k)}
  {reached : List (Fin k × List (Fin k))} {s : Sweep (Fin k)}

/-- The `let`s, in the order they are written in. -/
def lets : List (Fin k) :=
  (List.finRange k).filter fun n => (nodes n).isLet

/-- The names a `let` reads, if its value is plain. -/
def readsOf (n : Fin k) : Option (List (Option (Fin k))) :=
  (nodes n).body.bind plainValue

/-- A `let` that is read, unless it has been noted. -/
def noteRead (read : List (Fin k)) (res : Option (Fin k)) : List (Fin k) :=
  match res with
  | none => read
  | some target => if (nodes target).isLet ∧ target ∉ read then read ++ [target] else read

/-- The search for the `let`s that `start` reaches, each with the way to it: the nodes between,
then the `let`. -/
def reach (start : Fin k) :
    Nat → Sweep (Fin k) → List (Fin k × List (Fin k)) → List (Fin k × List (Fin k))
  | 0, _, reached => reached
  | fuel + 1, s, reached =>
    match s.queue with
    | [] => reached
    | node :: rest =>
      -- (what the `let` holds may be called through it: what its value mentions is reached too)
      reach start fuel (Sweep.spread (fun n => (nodes n).edges) ⟨s.notes, rest⟩ node)
        (if (nodes node).isLet then
          reached ++ [(node, wayTo s.notes start s.notes.length node [node])] else reached)

/-- The `let`s that `start` needs, each with the way to it. -/
def needsOf (start : Fin k) : List (Fin k × List (Fin k)) :=
  match readsOf nodes start with
  | some reads => (reads.foldl (noteRead nodes) []).map fun target => (target, [target])
  | none => reach nodes start k (Sweep.spread (fun n => (nodes n).edges) {} start) []

def needs (n : Fin k) : List (Fin k) :=
  (needsOf nodes n).map Prod.fst

def ways (n m : Fin k) : List (Fin k) :=
  ((needsOf nodes n).lookup m).getD []

/-! ### Rings -/

/-- What `at` needs is seen from it, until that is `start` itself. -/
def follow (start p : Fin k) : List (Fin k) → Sweep (Fin k) → Sweep (Fin k) × Bool
  | [], s => (s, false)
  | next :: rest, s =>
    if next = start then (⟨(start, p) :: s.notes, s.queue⟩, true)
    else follow start p rest (s.see p next)

/-- The search for the shortest way from `start` back to itself over the `let`s: what it noted,
if there is one. -/
def searchBack (start : Fin k) : Nat → Sweep (Fin k) → Option (List (Fin k × Fin k))
  | 0, _ => none
  | fuel + 1, s =>
    match s.queue with
    | [] => none
    | p :: rest =>
      match follow start p (needs nodes p) ⟨s.notes, rest⟩ with
      | (s, true) => some s.notes
      | (s, false) => searchBack start fuel s

/-- The way round a ring of `let`s, with the nodes between them. -/
def wayRound (ring : List (Fin k)) : List (Fin k) :=
  (ring.zip ring.tail).flatMap fun pair => ways nodes pair.1 pair.2

/-- The `let`s on the way round from `start` are in a ring, if there is a way round and `start`
is not known to be in one. -/
def ringFrom (inRing : List (Fin k)) (start : Fin k) : List (Fin k) :=
  if start ∈ inRing then inRing
  else
    match searchBack nodes start (k + 1) ⟨[], [start]⟩ with
    | none => inRing
    | some notes =>
      -- the ring is read back from `start` up the notes to `start`, both ends included
      let ring := start :: wayTo notes start notes.length start [start]
      inRing ++ (start :: wayRound nodes ring).filter fun n => (nodes n).isLet

/-- The `let`s reported as in a ring. -/
def inRing : List (Fin k) :=
  (lets nodes).foldl (ringFrom nodes) []

/-! ### The order -/

/-- What `n` waits for: what it needs, but for the `let`s in a ring. -/
def retained (ring : List (Fin k)) (n : Fin k) : List (Fin k) :=
  (needs nodes n).filter fun m => m ∉ ring

/-- The `let`s that wait for `m`. -/
def neededBy (ring : List (Fin k)) (m : Fin k) : List (Fin k) :=
  (lets nodes).flatMap fun n =>
    (retained nodes ring n).filterMap fun need => if need = m then some n else none

/-- How many each `let` waits for, and the `let`s that wait for none and are not in the order. -/
structure Waiting (k : Nat) where
  waits : Fin k → Nat
  ready : List (Fin k)

variable {w : Waiting k}

/-- One `let` fewer to wait for. -/
def Waiting.release (w : Waiting k) (dependent : Fin k) : Waiting k where
  waits := update w.waits dependent (w.waits dependent - 1)
  ready := if w.waits dependent - 1 = 0 then w.ready ++ [dependent] else w.ready

/-- Each `let` once the ones it needs are in: of those ready, the first written. -/
def orderLoop (ring : List (Fin k)) : Nat → Waiting k → List (Fin k) → List (Fin k)
  | 0, _, order => order
  | fuel + 1, w, order =>
    match w.ready.min? with
    | none => order
    | some n =>
      orderLoop ring fuel
        ((neededBy nodes ring n).foldl Waiting.release ⟨w.waits, w.ready.erase n⟩) (order ++ [n])

def waiting (ring : List (Fin k)) : Waiting k where
  waits n := (retained nodes ring n).length
  ready := (lets nodes).filter fun n => (retained nodes ring n).length = 0

/-- The order the `let`s are initialised in. -/
def initOrder : List (Fin k) :=
  let ring := inRing nodes
  orderLoop nodes ring (lets nodes).length (waiting nodes ring) []

/-! ### The needs as a relation -/

/-- The expression of the first node mentions the second. -/
def Edge (n m : Fin k) : Prop :=
  m ∈ (nodes n).edges

/-- A `let` needs another: it reads it, if its value is plain, and else it reaches it through any
chain of mentions. -/
def Need (n m : Fin k) : Prop :=
  (nodes m).isLet ∧
    match readsOf nodes n with
    | some reads => some m ∈ reads
    | none => TransGen (Edge nodes) n m

variable {nodes}

@[simp] theorem mem_lets : n ∈ lets nodes ↔ (nodes n).isLet := by
  simp [lets]

theorem nodup_lets : (lets nodes).Nodup := (nodup_finRange k).filter _

/-! ### The search finds what is needed -/

theorem mem_foldl_noteRead {read : List (Fin k)} :
    m ∈ reads.foldl (noteRead nodes) read ↔ m ∈ read ∨ ((nodes m).isLet ∧ some m ∈ reads) := by
  induction reads generalizing read with
  | nil => simp
  | cons res reads ih =>
    rw [foldl_cons, ih]
    cases res with
    | none => simp [noteRead]
    | some target =>
      have hn : m ∈ noteRead nodes read (some target) ↔
          m ∈ read ∨ ((nodes m).isLet ∧ m = target) := by
        simp only [noteRead]
        grind
      rw [hn, mem_cons, Option.some.injEq, or_assoc, ← and_or_left]

theorem nodup_foldl_noteRead {read : List (Fin k)} (h : read.Nodup) :
    (reads.foldl (noteRead nodes) read).Nodup := by
  induction reads generalizing read with
  | nil => exact h
  | cons res reads ih =>
    refine ih ?_
    cases res with
    | none => exact h
    | some target =>
      simp only [noteRead]
      grind

/-- The way to a `let`: a path of mentions that ends there. -/
def WayFrom (nodes : Fin k → Node k) (start : Fin k) (found : Fin k × List (Fin k)) : Prop :=
  ∃ pre, found.2 = pre ++ [found.1] ∧ List.IsChain (Edge nodes) (start :: (pre ++ [found.1]))

/-- What the search for `start`'s `let`s has done: `popped` are the nodes taken off the queue. -/
structure Reaching (nodes : Fin k → Node k) (start : Fin k) (s : Sweep (Fin k))
    (popped : List (Fin k)) (reached : List (Fin k × List (Fin k))) : Prop where
  sound : s.Sound (Edge nodes) start fun _ => False
  line : s.Line [] popped
  keys : reached.map Prod.fst = popped.filter fun n => (nodes n).isLet
  ways : ∀ found ∈ reached, WayFrom nodes start found

theorem Reaching.step {node : Fin k}
    (h : Reaching nodes start ⟨notes, node :: rest⟩ popped reached) :
    Reaching nodes start (Sweep.spread (fun n => (nodes n).edges) ⟨notes, rest⟩ node)
      (popped ++ [node])
      (if (nodes node).isLet then
        reached ++ [(node, wayTo notes start notes.length node [node])] else reached) := by
  have hn : node ∈ noted notes := by
    have hl : (noted notes).reverse = popped ++ node :: rest := h.line
    rw [← mem_reverse, hl]
    simp
  refine ⟨h.sound.pop.spread_all (fun _ => Iff.rfl) (.inr hn), ?_, ?_, ?_⟩
  · have hl : Sweep.Line [] (popped ++ [node]) ⟨notes, rest⟩ := by
      have := h.line
      unfold Sweep.Line at this ⊢
      rw [this, append_assoc, singleton_append]
    exact hl.foldl_see node _
  · split_ifs with hlt
    · simp [h.keys, hlt]
    · simp [h.keys, hlt]
  · intro found hf
    split_ifs at hf with hlt
    · rcases mem_append.mp hf with hf | hf
      · exact h.ways found hf
      · rw [mem_singleton.mp hf]
        exact wayTo_spec h.sound.grown hn
    · exact h.ways found hf

/-- Every `let` that `start` reaches, once, and a way to each. -/
structure Found (nodes : Fin k → Node k) (start : Fin k) (reached : List (Fin k × List (Fin k))) :
    Prop where
  nodup : (reached.map Prod.fst).Nodup
  mem_iff : ∀ m, m ∈ reached.map Prod.fst ↔ (nodes m).isLet ∧ TransGen (Edge nodes) start m
  ways : ∀ found ∈ reached, WayFrom nodes start found

theorem Reaching.ended (h : Reaching nodes start s popped reached) (hq : s.queue = []) :
    Found nodes start reached := by
  obtain ⟨notes, queue⟩ := s
  obtain rfl : queue = [] := hq
  have hl : (noted notes).reverse = popped := by
    simpa [Sweep.Line] using h.line
  refine ⟨?_, fun m => ?_, h.ways⟩
  · rw [h.keys, ← hl]
    exact (nodup_reverse.mpr h.sound.grown.nodup).filter _
  · rw [h.keys, ← hl, mem_filter, mem_reverse, and_comm]
    exact and_congr_right fun _ => ⟨h.sound.grown.reaches, h.sound.mem_of_reaches⟩

theorem reach_found (fuel : Nat) (h : Reaching nodes start s popped reached)
    (hf : k ≤ popped.length + fuel) : Found nodes start (reach nodes start fuel s reached) := by
  induction fuel generalizing s popped reached with
  | zero =>
    exact h.ended (h.line.queue_eq_nil h.sound.grown (by simpa using hf))
  | succ fuel ih =>
    obtain ⟨notes, queue⟩ := s
    cases queue with
    | nil => exact h.ended rfl
    | cons node rest =>
      refine ih h.step ?_
      rw [length_append, length_singleton]
      omega

theorem needsOf_of_reads (h : readsOf nodes n = some reads) :
    needsOf nodes n = (reads.foldl (noteRead nodes) []).map fun target => (target, [target]) := by
  rw [needsOf, h]

theorem needsOf_found (h : readsOf nodes n = none) : Found nodes n (needsOf nodes n) := by
  have hi : Reaching nodes n (Sweep.spread (fun n => (nodes n).edges) {} n) [] [] :=
    ⟨Sweep.Sound.spread_all (.init (Edge nodes) n rfl) (fun _ => Iff.rfl) (.inl rfl),
      Sweep.Line.foldl_see (by simp [Sweep.Line]) n _, rfl, by simp⟩
  rw [needsOf, h]
  exact reach_found k hi (by simp)

theorem needs_of_reads (h : readsOf nodes n = some reads) :
    needs nodes n = reads.foldl (noteRead nodes) [] := by
  simp [needs, needsOf_of_reads h, comp_def]

theorem mem_needs_iff : m ∈ needs nodes n ↔ Need nodes n m := by
  unfold Need
  cases h : readsOf nodes n with
  | none => exact (needsOf_found h).mem_iff m
  | some reads => simp [needs_of_reads h, mem_foldl_noteRead]

theorem nodup_needs (n : Fin k) : (needs nodes n).Nodup := by
  cases h : readsOf nodes n with
  | none => exact (needsOf_found h).nodup
  | some reads =>
    rw [needs_of_reads h]
    exact nodup_foldl_noteRead nodup_nil

/-- What stands on the way to a `let`: the `let`, or, where the value is not plain, what is
mentioned on a path to it. -/
theorem of_mem_ways {x : Fin k} (hx : x ∈ ways nodes n m) :
    x = m ∨ (readsOf nodes n = none ∧ TransGen (Edge nodes) n x ∧ TransGen (Edge nodes) x m) := by
  unfold ways at hx
  cases hl : (needsOf nodes n).lookup m with
  | none => simp [hl] at hx
  | some way =>
    rw [hl, Option.getD_some] at hx
    have hm : (m, way) ∈ needsOf nodes n := by
      obtain ⟨pre, post, hs, -⟩ := lookup_eq_some_iff.mp hl
      simp [hs]
    cases h : readsOf nodes n with
    | some reads =>
      rw [needsOf_of_reads h, mem_map] at hm
      grind
    | none =>
      obtain ⟨pre, hw, hc⟩ := (needsOf_found h).ways _ hm
      obtain rfl : way = pre ++ [m] := hw
      rcases mem_append.mp hx with hx | hx
      · exact .inr ⟨rfl, reached_of_isChain hc (mem_append_left _ hx),
          reaches_of_isChain (show List.IsChain (Edge nodes) (n :: pre ++ [m]) from hc)
            (mem_cons_of_mem _ hx)⟩
      · exact .inl (mem_singleton.mp hx)

/-! ### Rings -/

/-- What the search for a way back keeps: `start` has not been seen again. -/
structure Backing (nodes : Fin k → Node k) (start : Fin k) (s : Sweep (Fin k))
    (popped : List (Fin k)) : Prop where
  sound : s.Sound (Need nodes) start fun _ => False
  line : s.Line [start] popped
  unseen : start ∉ noted s.notes

/-- Following what a `let` needs: all of it is seen, or `start` comes up. -/
theorem follow_cases {targets : List (Fin k)} :
    (follow start p targets s = (targets.foldl (Sweep.see p) s, false) ∧ start ∉ targets) ∨
    ∃ pre post, targets = pre ++ start :: post ∧ start ∉ pre ∧
      follow start p targets s =
        (⟨(start, p) :: (pre.foldl (Sweep.see p) s).notes, (pre.foldl (Sweep.see p) s).queue⟩,
          true) :=
    by
  induction targets generalizing s with
  | nil => exact .inl ⟨rfl, by simp⟩
  | cons next targets ih =>
    unfold follow
    by_cases hn : next = start
    · exact .inr ⟨[], targets, by simp [hn], by simp, by simp [hn]⟩
    grind

/-- A `let` taken off the queue, and all it needs seen without `start`. -/
theorem Backing.step (h : Backing nodes start ⟨notes, p :: rest⟩ popped)
    (hs : start ∉ needs nodes p) :
    Backing nodes start (Sweep.spread (needs nodes) ⟨notes, rest⟩ p) (popped ++ [p]) := by
  have hp : p = start ∨ p ∈ noted notes := h.sound.queued p mem_cons_self
  refine ⟨h.sound.pop.spread_all (fun _ => mem_needs_iff) hp, ?_, ?_⟩
  · have hl : Sweep.Line [start] (popped ++ [p]) ⟨notes, rest⟩ := by
      have := h.line
      unfold Sweep.Line at this ⊢
      rw [this, append_assoc, singleton_append]
    exact hl.foldl_see p _
  · unfold Sweep.spread
    rw [Sweep.mem_noted_foldl, not_or]
    exact ⟨h.unseen, hs⟩

/-- `start` found among what a `let` needs, after `pre`. -/
theorem Backing.back {pre post : List (Fin k)} (h : Backing nodes start ⟨notes, p :: rest⟩ popped)
    (hn : needs nodes p = pre ++ start :: post) (hpr : start ∉ pre) :
    Grown (Need nodes) start ((start, p) :: (pre.foldl (Sweep.see p) ⟨notes, rest⟩).notes) := by
  have hp : p = start ∨ p ∈ noted notes := h.sound.queued p mem_cons_self
  have hnd : ∀ m ∈ pre ++ [start], Need nodes p m := by
    intro m hm
    rw [← mem_needs_iff, hn]
    grind
  have hs := h.sound.pop.foldl_see hp fun m hm => hnd m (mem_append_left _ hm)
  refine hs.grown.cons (hnd start (by simp)) ?_ ?_
  · exact hp.imp_right fun hp => Sweep.mem_noted_foldl.mpr (.inl hp)
  · rw [Sweep.mem_noted_foldl, not_or]
    exact ⟨h.unseen, hpr⟩

theorem Backing.ended (h : Backing nodes start s popped) (hq : s.queue = []) :
    ¬ TransGen (Need nodes) start start := by
  intro hb
  obtain ⟨notes, queue⟩ := s
  obtain rfl : queue = [] := hq
  exact h.unseen (h.sound.mem_of_reaches hb)

/-- The search finds a way back, with notes that lead from `start` to `start`, or there is none. -/
theorem searchBack_spec (fuel : Nat) (h : Backing nodes start s popped)
    (hfl : k + 1 ≤ popped.length + fuel) :
    (searchBack nodes start fuel s = none ∧ ¬ TransGen (Need nodes) start start) ∨
      ∃ notes, searchBack nodes start fuel s = some notes ∧
        Grown (Need nodes) start notes ∧ start ∈ noted notes := by
  induction fuel generalizing s popped with
  | zero =>
    have hq := h.line.queue_eq_nil h.sound.grown (by simp; omega)
    exact .inl ⟨rfl, h.ended hq⟩
  | succ fuel ih =>
    obtain ⟨notes, queue⟩ := s
    cases queue with
    | nil => exact .inl ⟨rfl, h.ended rfl⟩
    | cons p rest =>
      have hf : searchBack nodes start (fuel + 1) ⟨notes, p :: rest⟩ =
          match follow start p (needs nodes p) ⟨notes, rest⟩ with
          | (s, true) => some s.notes
          | (s, false) => searchBack nodes start fuel s := rfl
      rw [hf]
      rcases follow_cases with ⟨heq, hs⟩ | ⟨pre, post, hn, hp, heq⟩
      · rw [heq]
        refine ih (h.step hs) ?_
        rw [length_append, length_singleton]
        omega
      · rw [heq]
        exact .inr ⟨_, rfl, h.back hn hp, by simp⟩

/-- A `let` that is no plain value and reaches another needs it. -/
theorem need_of_reaches (hl : (nodes m).isLet) (hp : readsOf nodes n = none)
    (h : TransGen (Edge nodes) n m) : Need nodes n m := by
  refine ⟨hl, ?_⟩
  rw [hp]
  exact h

/-- A plain value that stands between two `let`s of a ring: the first reaches it, and it mentions
a way on to the second. -/
def Between (nodes : Fin k → Node k) (n : Fin k) : Prop :=
  (readsOf nodes n).isSome ∧ ∃ a b, readsOf nodes a = none ∧ TransGen (Edge nodes) a n ∧
    TransGen (Edge nodes) n b ∧ Need nodes a b ∧ ReflTransGen (Need nodes) b a

/-- What is on the way round and is a `let` needs itself, or is a plain value between two that
do. -/
theorem of_mem_wayRound {pre : List (Fin k)}
    (h : List.IsChain (Need nodes) (start :: (pre ++ [start]))) (hl : (nodes n).isLet)
    (hn : n ∈ wayRound nodes (start :: (pre ++ [start]))) :
    TransGen (Need nodes) n n ∨ Between nodes n := by
  obtain ⟨⟨a, b⟩, hab, hw⟩ := mem_flatMap.mp hn
  obtain ⟨hne, hs, hb⟩ := of_mem_zip_tail h hab
  have hba : ReflTransGen (Need nodes) b a := hb.trans hs
  rcases of_mem_ways hw with rfl | ⟨hp, han, hnb⟩
  · exact .inl (.tail' hba hne)
  · have hnd : Need nodes a n := need_of_reaches hl hp han
    cases hr : readsOf nodes n with
    | some reads => exact .inr ⟨by simp [hr], a, b, hp, han, hnb, hne, hba⟩
    | none =>
      have hnb' : Need nodes n b := need_of_reaches hne.1 hr hnb
      exact .inl (.head' hnb' (hba.tail hnd))

/-- One search: the `let` it starts at is reported if it needs itself, and what is reported more
stands on a way round. -/
theorem ringFrom_spec (ring : List (Fin k)) (hl : (nodes start).isLet) :
    ring ⊆ ringFrom nodes ring start ∧
      (TransGen (Need nodes) start start → start ∈ ringFrom nodes ring start) ∧
      ∀ n ∈ ringFrom nodes ring start, n ∈ ring ∨
        ((nodes n).isLet ∧ (TransGen (Need nodes) n n ∨ Between nodes n)) := by
  have hi : Backing nodes start ⟨[], [start]⟩ [] := ⟨.start _ _ _, by simp [Sweep.Line], by simp⟩
  unfold ringFrom
  split_ifs with hm
  · exact ⟨List.Subset.refl _, fun _ => hm, fun n hn => .inl hn⟩
  · rcases searchBack_spec (k + 1) hi (by simp) with
      ⟨hnn, hnt⟩ | ⟨notes, hsm, hg, hb⟩
    · grind
    · rw [hsm]
      obtain ⟨pre, hw, hc⟩ := wayTo_spec hg hb
      simp only [hw]
      have hs : TransGen (Need nodes) start start := reached_of_isChain hc (by simp)
      refine ⟨subset_append_left _ _, fun _ => by simp [hl], fun n hn => ?_⟩
      refine (mem_append.mp hn).imp_right fun hn => ?_
      obtain ⟨hn, hnl⟩ := mem_filter.mp hn
      refine ⟨hnl, ?_⟩
      rcases mem_cons.mp hn with rfl | hn
      · exact .inl hs
      · exact of_mem_wayRound hc hnl hn

theorem foldl_ringFrom_spec {starts : List (Fin k)} (hl : ∀ n ∈ starts, (nodes n).isLet) :
    ring ⊆ starts.foldl (ringFrom nodes) ring ∧
      (∀ n ∈ starts, TransGen (Need nodes) n n → n ∈ starts.foldl (ringFrom nodes) ring) ∧
      ∀ n ∈ starts.foldl (ringFrom nodes) ring, n ∈ ring ∨
        ((nodes n).isLet ∧ (TransGen (Need nodes) n n ∨ Between nodes n)) := by
  induction starts generalizing ring with
  | nil => exact ⟨List.Subset.refl _, by simp, fun n hn => .inl hn⟩
  | cons start starts ih =>
    obtain ⟨hsb, hs, hnw⟩ := ringFrom_spec ring (hl start mem_cons_self)
    grind

theorem mem_inRing_of_need (hl : (nodes n).isLet) (h : TransGen (Need nodes) n n) :
    n ∈ inRing nodes :=
  (foldl_ringFrom_spec fun _ hn => mem_lets.mp hn).2.1 n (mem_lets.mpr hl) h

/-- What is reported is a `let` that needs itself, or a plain value between two that do. -/
theorem of_mem_inRing (h : n ∈ inRing nodes) :
    (nodes n).isLet ∧ (TransGen (Need nodes) n n ∨ Between nodes n) :=
  ((foldl_ringFrom_spec fun _ hn => mem_lets.mp hn).2.2 n h).resolve_left not_mem_nil

/-! ### The order -/

/-- What `n` waits for has to come before it. -/
def Before (nodes : Fin k → Node k) (ring : List (Fin k)) (m n : Fin k) : Prop :=
  (nodes n).isLet ∧ m ∈ retained nodes ring n

theorem mem_retained : m ∈ retained nodes ring n ↔ Need nodes n m ∧ m ∉ ring := by
  simp [retained, mem_needs_iff]

theorem nodup_retained (ring : List (Fin k)) (n : Fin k) : (retained nodes ring n).Nodup :=
  (nodup_needs n).filter _

theorem mem_neededBy : n ∈ neededBy nodes ring m ↔ Before nodes ring m n := by
  simp only [neededBy, mem_flatMap, mem_lets, mem_filterMap, Before]
  grind

theorem nodup_neededBy (ring : List (Fin k)) (m : Fin k) : (neededBy nodes ring m).Nodup := by
  refine nodup_flatMap.mpr ⟨fun n _ => ?_, nodup_lets.imp fun hne => ?_⟩
  · refine (nodup_retained ring n).filterMap fun a a' b ha ha' => ?_
    grind
  · intro x hx hx'
    grind

theorem waits_foldl_release {ds : List (Fin k)} (hnodup : ds.Nodup) (w : Waiting k) (n : Fin k) :
    (ds.foldl Waiting.release w).waits n = if n ∈ ds then w.waits n - 1 else w.waits n := by
  induction ds generalizing w with
  | nil => simp
  | cons d ds ih =>
    obtain ⟨hd, hnodup⟩ := nodup_cons.mp hnodup
    rw [foldl_cons, ih hnodup]
    by_cases hn : n = d
    · subst hn
      simp [hd, Waiting.release]
    · simp [hn, Waiting.release]

theorem ready_foldl_release {ds : List (Fin k)} (hnodup : ds.Nodup) (w : Waiting k) :
    (ds.foldl Waiting.release w).ready = w.ready ++ ds.filter fun n => w.waits n - 1 = 0 := by
  induction ds generalizing w with
  | nil => simp
  | cons d ds ih =>
    obtain ⟨hd, hnodup⟩ := nodup_cons.mp hnodup
    have hk : ds.filter (fun n => (w.release d).waits n - 1 = 0) =
        ds.filter fun n => w.waits n - 1 = 0 := by
      refine filter_congr fun n hn => ?_
      have hne : n ≠ d := fun h => hd (h ▸ hn)
      simp [Waiting.release, hne]
    rw [foldl_cons, ih hnodup, hk]
    by_cases hz : w.waits d - 1 = 0
    · simp [Waiting.release, hz]
    · simp [Waiting.release, hz]

/-- What the loop keeps: each `let` waits for those it needs that are not in the order, and those
ready wait for none. -/
structure Waits (nodes : Fin k → Node k) (ring : List (Fin k)) (w : Waiting k)
    (order : List (Fin k)) : Prop where
  nodup : order.Nodup
  subset : order ⊆ lets nodes
  closed : ∀ n ∈ order, ∀ m ∈ retained nodes ring n, m ∈ order
  waits : ∀ n, (nodes n).isLet → w.waits n = ((retained nodes ring n).filter (· ∉ order)).length
  unique : w.ready.Nodup
  ready : ∀ n, n ∈ w.ready ↔ Ready (Before nodes ring) (lets nodes) order n

theorem ready_iff :
    Ready (Before nodes ring) (lets nodes) order n ↔
      (nodes n).isLet ∧ n ∉ order ∧ ∀ m ∈ retained nodes ring n, m ∈ order := by
  constructor
  · intro h
    have hl := mem_lets.mp h.mem
    exact ⟨hl, h.fresh, fun m hm => h.ready m ⟨hl, hm⟩⟩
  · rintro ⟨hl, hf, hr⟩
    exact ⟨mem_lets.mpr hl, hf, fun m hm => hr m hm.2⟩

/-- With `n` in the order, there is one fewer to wait for where `n` was waited for. -/
theorem length_filter_snoc (hn : n ∉ order) :
    ((retained nodes ring d).filter (· ∉ order ++ [n])).length =
      if n ∈ retained nodes ring d then ((retained nodes ring d).filter (· ∉ order)).length - 1
      else ((retained nodes ring d).filter (· ∉ order)).length := by
  have hs : (retained nodes ring d).filter (· ∉ order ++ [n]) =
      ((retained nodes ring d).filter (· ∉ order)).erase n := by
    rw [((nodup_retained ring d).filter _).erase_eq_filter, filter_filter]
    grind
  rw [hs, length_erase]
  simp [hn]

/-- What waits for a `let` that is ready is not in the order, and not ready. -/
theorem Waits.dependent (h : Waits nodes ring w order) (hn : n ∈ w.ready)
    (hd : n ∈ retained nodes ring d) : d ∉ order ∧ d ≠ n ∧ d ∉ w.ready := by
  obtain ⟨-, hf, hin⟩ := ready_iff.mp ((h.ready n).mp hn)
  refine ⟨fun ho => hf (h.closed d ho n hd), ?_, fun hr => ?_⟩
  · rintro rfl
    exact hf (hin d hd)
  · exact hf ((ready_iff.mp ((h.ready d).mp hr)).2.2 n hd)

theorem waits_eq_zero_iff :
    ((retained nodes ring d).filter (· ∉ order)).length = 0 ↔
      ∀ m ∈ retained nodes ring d, m ∈ order := by
  simp [length_eq_zero_iff, filter_eq_nil_iff]

theorem Waits.step (h : Waits nodes ring w order) (hn : n ∈ w.ready) :
    Waits nodes ring ((neededBy nodes ring n).foldl Waiting.release ⟨w.waits, w.ready.erase n⟩)
      (order ++ [n]) := by
  obtain ⟨hl, hf, hin⟩ := ready_iff.mp ((h.ready n).mp hn)
  have ho (d : Fin k) (hd : n ∈ retained nodes ring d) (hdl : (nodes d).isLet) :
      w.waits d - 1 = ((retained nodes ring d).filter (· ∉ order ++ [n])).length := by
    rw [length_filter_snoc hf, if_pos hd, h.waits d hdl]
  refine ⟨?_, ?_, ?_, ?_, ?_, ?_⟩
  · exact nodup_append.mpr ⟨h.nodup, nodup_singleton n, by
      rintro a ha b hb rfl
      exact hf (mem_singleton.mp hb ▸ ha)⟩
  · intro d hd
    rcases mem_append.mp hd with hd | hd
    · exact h.subset hd
    · rw [mem_singleton.mp hd]
      exact mem_lets.mpr hl
  · intro d hd m hm
    rcases mem_append.mp hd with hd | hd
    · exact mem_append_left _ (h.closed d hd m hm)
    grind
  · intro d hd
    rw [waits_foldl_release (nodup_neededBy ring n), length_filter_snoc hf, h.waits d hd]
    simp [mem_neededBy, Before, hd]
  · rw [ready_foldl_release (nodup_neededBy ring n)]
    refine nodup_append.mpr ⟨h.unique.erase n, (nodup_neededBy ring n).filter _, ?_⟩
    rintro a ha b hb rfl
    have hnd := mem_neededBy.mp (mem_filter.mp hb).1
    exact (h.dependent hn hnd.2).2.2 (mem_of_mem_erase ha)
  · intro d
    rw [ready_foldl_release (nodup_neededBy ring n), mem_append, mem_filter,
      mem_neededBy, h.unique.mem_erase_iff, decide_eq_true_iff, h.ready d, ready_iff, ready_iff]
    by_cases hd : n ∈ retained nodes ring d
    · -- `d` waited for `n`: it becomes ready when `n` was the last
      obtain ⟨hor, hne, hno⟩ := h.dependent hn hd
      have hnt : ¬ ∀ m ∈ retained nodes ring d, m ∈ order := fun hal => hf (hal n hd)
      constructor
      · rintro (⟨-, -, -, hal⟩ | ⟨hbf, hz⟩)
        · exact absurd hal hnt
        · refine ⟨hbf.1, by simp [hor, hne], ?_⟩
          rw [ho d hd hbf.1] at hz
          exact waits_eq_zero_iff.mp hz
      · rintro ⟨hdl, -, hal⟩
        refine .inr ⟨⟨hdl, hd⟩, ?_⟩
        change w.waits d - 1 = 0
        rw [ho d hd hdl]
        exact waits_eq_zero_iff.mpr hal
    · -- `d` did not wait for `n`: it is ready as before
      have hs : (∀ m ∈ retained nodes ring d, m ∈ order ++ [n]) ↔
          ∀ m ∈ retained nodes ring d, m ∈ order := by
        grind
      rw [hs]
      simp only [Before, hd, and_false, false_and, or_false, mem_append, mem_singleton, not_or]
      tauto

/-- The loop goes on with the least `let` that is ready, until none is. -/
theorem orderLoop_greedy (fuel : Nat) (h : Waits nodes ring w order)
    (hf : (lets nodes).length ≤ order.length + fuel) :
    ∃ rest, orderLoop nodes ring fuel w order = order ++ rest ∧
      Greedy (Before nodes ring) (lets nodes) order rest := by
  induction fuel generalizing w order with
  | zero =>
    refine ⟨[], by simp [orderLoop], .stop fun n hn => ?_⟩
    -- the order holds as many as there are
    have hmr : (n :: order).length ≤ (lets nodes).length :=
      (List.Nodup.subperm (nodup_cons.mpr ⟨hn.fresh, h.nodup⟩)
        (cons_subset.mpr ⟨hn.mem, h.subset⟩)).length_le
    rw [length_cons] at hmr
    omega
  | succ fuel ih =>
    unfold orderLoop
    cases hmn : w.ready.min? with
    | none =>
      refine ⟨[], by simp, .stop fun n hn => ?_⟩
      rw [min?_eq_none_iff] at hmn
      simpa [hmn] using (h.ready n).mpr hn
    | some n =>
      obtain ⟨hn, hl⟩ := min?_eq_some_iff.mp hmn
      obtain ⟨rest, heq, hg⟩ := ih (h.step hn) (by
        rw [length_append, length_singleton]
        omega)
      refine ⟨n :: rest, by simp [heq], .next ((h.ready n).mp hn) ?_ hg⟩
      intro m hm
      exact hl m ((h.ready m).mpr hm)

theorem waiting_waits (ring : List (Fin k)) : Waits nodes ring (waiting nodes ring) [] where
  nodup := nodup_nil
  subset := by simp
  closed := by simp
  waits := by simp [waiting]
  unique := nodup_lets.filter _
  ready n := by
    rw [ready_iff]
    simp [waiting, eq_nil_iff_forall_not_mem]

theorem initOrder_greedy (nodes : Fin k → Node k) :
    Greedy (Before nodes (inRing nodes)) (lets nodes) [] (initOrder nodes) := by
  obtain ⟨rest, heq, hg⟩ :=
    orderLoop_greedy (lets nodes).length (@waiting_waits k nodes (inRing nodes)) (by simp)
  unfold initOrder
  rw [heq]
  exact hg

/-- With the rings out of it, nothing has to come before itself. -/
theorem before_acyclic (n : Fin k) : ¬ TransGen (Before nodes (inRing nodes)) n n := by
  intro hc
  have hn : ∀ {a b : Fin k}, TransGen (Before nodes (inRing nodes)) a b →
      TransGen (Need nodes) b a ∧ (nodes b).isLet ∧ a ∉ inRing nodes := by
    intro a b h
    induction h with
    | single h =>
      obtain ⟨hn, hnt⟩ := mem_retained.mp h.2
      exact ⟨.single hn, h.1, hnt⟩
    | tail _ h ih =>
      obtain ⟨hn, -⟩ := mem_retained.mp h.2
      exact ⟨.head hn ih.1, h.1, ih.2.2⟩
  obtain ⟨hs, hl, hnt⟩ := hn hc
  exact hnt (mem_inRing_of_need hl hs)

/-- An order the `let`s can be initialised in: each of them once, after every `let` it needs that
is not reported. -/
structure Initialises (nodes : Fin k → Node k) (order : List (Fin k)) : Prop where
  once : order.Perm (lets nodes)
  after : ∀ n m, Need nodes n m → m ∉ inRing nodes →
    ∀ pre post, order = pre ++ n :: post → m ∈ pre

theorem Initialises.keeps (h : Initialises nodes order) :
    Keeps (Before nodes (inRing nodes)) [] order := by
  refine keeps_of_mem_of_before fun pre n post hs m hm => ?_
  obtain ⟨hn, hnt⟩ := mem_retained.mp hm.2
  exact h.after n m hn hnt pre post hs

theorem initOrder_initialises : Initialises nodes (initOrder nodes) := by
  have hg := initOrder_greedy nodes
  have hl : ∀ m n, Before nodes (inRing nodes) m n → m ∈ lets nodes := fun m n h =>
    mem_lets.mpr (mem_retained.mp h.2).1.1
  have hsb := hg.subset
  refine ⟨?_, fun n m hnd hnt pre post hs => ?_⟩
  · have hnodup : (initOrder nodes).Nodup := by simpa using hg.nodup nodup_nil
    refine (perm_ext_iff_of_nodup hnodup nodup_lets).mpr fun n => ⟨fun hn => hsb hn, ?_⟩
    intro hn
    simpa using hg.mem before_acyclic hl hn
  · have hn : n ∈ lets nodes := hsb (by simp [hs])
    have hb : Before nodes (inRing nodes) m n := ⟨mem_lets.mp hn, mem_retained.mpr ⟨hnd, hnt⟩⟩
    simpa using hg.keeps.mem_of_before hs hb

/-- The order holds every `let` once, each after every `let` it needs that is not reported, and of
such orders it is the least in the order the `let`s are written in.  A `let` that needs itself is
reported; a `let` that is reported and does not need itself is a plain value that stands on the way
between two of a ring. -/
theorem initOrder_spec (nodes : Fin k → Node k) :
    Initialises nodes (initOrder nodes) ∧
      (∀ order, Initialises nodes order → initOrder nodes ≤ order) ∧
      (∀ n, (nodes n).isLet → TransGen (Need nodes) n n → n ∈ inRing nodes) ∧
      ∀ n ∈ inRing nodes, (nodes n).isLet ∧ (TransGen (Need nodes) n n ∨ Between nodes n) := by
  refine ⟨initOrder_initialises, fun order h => ?_, fun n => mem_inRing_of_need,
    fun n => of_mem_inRing⟩
  refine (initOrder_greedy nodes).le h.keeps ?_ ?_ ?_
  · simpa using (h.once.nodup_iff).mpr nodup_lets
  · exact h.once.subset
  · exact (h.once.trans initOrder_initialises.once.symm).length_eq

/-- `let a = x(1)`, `let x = { n -> b + n }`, `let b = a + 1`: the closure is on the way by
which `a` reaches itself. -/
def throughClosure : Fin 4 → Node 4
  | 0 => ⟨false, none, []⟩
  | 1 => ⟨true, some (.call false (some 2) [.literal]), [2]⟩
  | 2 => ⟨true, some .lambda, [3]⟩
  | 3 => ⟨true, some .other, [1]⟩

/-- `let r = g() + k`, `fn g() { r }`, `let k = 1`: `r` needs itself, and `k`. -/
def ringFirst : Fin 4 → Node 4
  | 0 => ⟨false, none, []⟩
  | 1 => ⟨true, some .other, [2, 3]⟩
  | 2 => ⟨false, none, [1]⟩
  | 3 => ⟨true, some .literal, []⟩

/-- A closure that needs nothing is reported, and a `let` on a ring waits for those that are on
none, although it is written before them. -/
theorem initOrder_ring_through_closure :
    (2 ∈ inRing throughClosure ∧ ¬ TransGen (Need throughClosure) 2 2) ∧
      1 ∈ inRing ringFirst ∧ initOrder ringFirst = [3, 1] ∧
      List.Perm [1, 3] (lets ringFirst) ∧
      ∀ n m, (ringFirst n).isLet → n ∉ inRing ringFirst → ¬ Need ringFirst n m := by
  refine ⟨⟨by decide, fun h => ?_⟩, by decide, by decide, by decide, fun n m hlt hn hnd => ?_⟩
  · obtain ⟨m, hm, -⟩ := TransGen.head'_iff.mp h
    simpa [Need, readsOf, throughClosure, plainValue] using hm.2
  · have hl : ∀ n, (ringFirst n).isLet → n ∉ inRing ringFirst → n = 3 := by decide
    obtain rfl := hl n hlt hn
    simpa [Need, readsOf, ringFirst, plainValue] using hnd.2

end Silt.Typechecker.InitOrder
