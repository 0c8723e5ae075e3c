import Mathlib.Data.Fintype.Basic
import Mathlib.Data.Fin.VecNotation
import Silt.Collections.Value

/-!
# The walk through values side by side

One walk goes through values side by side, their heads and then their parts in order, and three
visitors say what is done at each step: the equality of two values, their order, and the hash of
one.  The walk goes down a bounded number of levels by calling itself, and below them with a stack
of its own for what it comes back to.

A step that stops the walk is an error of the visitor's own type; a walk that did not come to an
end within the steps it is given here, or that read past the end of a run, is `none`.

## Main definitions

* `Visit` : what is done at each step.
* `walk`, `through`, `throughFar` : the walk.
* `Value.eq`, `Value.cmp`, `Value.hash` : what the three visitors make of it.
-/

namespace Silt.Collections

variable {declared : Nat → List Text} {n : Nat} {α σ Stop : Type}

/-- Things side by side: one at least. -/
abbrev Each (n : Nat) (α : Type) := Fin (n + 1) → α

/-- Things that are there or not, taken together. -/
inductive Among (n : Nat) (α : Type) where
  | all (items : Each n α)
  | none
  /-- Some are there: which are not. -/
  | some (missing : Each n Bool)

def among (items : Each n (Option α)) : Among n α :=
  if h : ∀ i, (items i).isSome then .all fun i => (items i).get (h i)
  else if ∃ i, (items i).isSome then .some fun i => (items i).isNone
  else .none

/-- The next of each, taken together, and what is left. -/
def nextOf (iters : Each n (List α)) : Among n α × Each n (List α) :=
  (among fun i => (iters i).head?, fun i => (iters i).tail)

/-- The first of each slice, taken together and taken off. -/
def firstOf (slices : Each n (List (Value declared))) :
    Among n (Value declared) × Each n (List (Value declared)) :=
  nextOf slices

/-! ### Visitors -/

/-- What the walk makes: it goes on, or is stopped, or has not come to an end. -/
abbrev Flow (Stop α : Type) := ExceptT Stop Option α

/-- A step of a visitor. -/
def Flow.step (outcome : Except Stop α) : Flow Stop α := ExceptT.mk (some outcome)

/-- The walk has not come to an end. -/
def Flow.out : Flow Stop α := ExceptT.mk none

/-- What is done at each step of a walk through values side by side, with the state `σ` of the
visitor. -/
structure Visit (declared : Nat → List Text) (n : Nat) (σ Stop : Type) where
  /-- Whether the walk tells the name of each record field it comes to. -/
  names : Bool
  heads : Each n (Value declared) → σ → Except Stop σ
  lens : Each n Nat → σ → Except Stop σ
  /-- Whether the walk goes on to the elements of the lists. -/
  lists : Each n (Elements (Value declared)) → σ → Except Stop (Bool × σ)
  name : Text → σ → σ
  /-- Some of the values have no part left where the others have. -/
  uneven : Each n Bool → σ → Except Stop σ

/-- The parts of a tuple, of a variant and of a closure. -/
def Value.run : Value declared → List (Value declared)
  | .tuple items => items
  | .variant _ _ fields => fields
  | .vmClosure _ upvalues => upvalues
  | _ => []

/-- The fields of a record. -/
def Value.fields : Value declared → List (Value declared)
  | .record _ fields => fields
  | _ => []

/-- The list the value is, or else `first`. -/
def Value.listOr (first : Elements (Value declared)) : Value declared → Elements (Value declared)
  | .list elements => elements
  | _ => first

/-- The entries of the map the value is, or else `first`. -/
def Value.mapOr (first : List (Value declared × Value declared)) :
    Value declared → List (Value declared × Value declared)
  | .map entries => entries
  | _ => first

/-- The members of the set the value is, or else `first`. -/
def Value.setOr (first : List (Value declared)) : Value declared → List (Value declared)
  | .set members => members
  | _ => first

namespace Visit

/-- The parts of values that keep them in runs. -/
inductive Runs (declared : Nat → List Text) (n : Nat) where
  /-- The parts of each value, in one run, and for records the type that names them. -/
  | of (names : Option (TypeInfo declared)) (runs : Each n (List (Value declared)))
  /-- The elements of lists, in runs that may end in different places. -/
  | elements (more : Each n (List (Run (Value declared))))
  /-- Lists that are answered for without their elements. -/
  | done
  /-- Maps or sets. -/
  | not

variable (visit : Visit declared n σ Stop)

/-- The step before the parts of tuples, variants or closures. -/
def runsOf (values : Each n (Value declared)) (s : σ) : Flow Stop (Runs declared n × σ) := do
  let s ← Flow.step (visit.lens (fun i => (values i).run.length) s)
  pure (.of none fun i => (values i).run, s)

/-- The parts of values whose heads are visited, if the values keep them in runs; with the step of
the visitor that comes before the parts. -/
def runs (values : Each n (Value declared)) (s : σ) : Flow Stop (Runs declared n × σ) :=
  match values 0 with
  | .tuple _ | .variant _ _ _ | .vmClosure _ _ => visit.runsOf values s
  | .record ty _ => pure (.of (some ty) fun i => (values i).fields, s)
  | .list first => do
    let (onward, s) ← Flow.step (visit.lists (fun i => (values i).listOr first) s)
    if onward then pure (.elements fun i => Value.runs ((values i).listOr first), s)
    else pure (.done, s)
  | _ => pure (.not, s)

/-- The name of the next field of a record of which the fields `left` are left. -/
def nextName (ty : TypeInfo declared) (left : List (Value declared)) : Option Text :=
  if left.length ≤ ty.names.length then ty.names[ty.names.length - left.length]? else none

/-- Tell the visitor a name, if it wants names and there is one. -/
def tell (name : Option Text) (s : σ) : σ :=
  if visit.names then
    match name with
    | some name => visit.name name s
    | none => s
  else s

/-- The name of the next of the parts `runs`, which are of the first value of type `names`. -/
def nameOf (names : Option (TypeInfo declared)) (runs : Each n (List (Value declared))) :
    Option Text :=
  names.bind fun ty => nextName ty (runs 0)

/-! ### The walk, near where it began -/

section Near

-- `below` goes through the parts of values.
variable (below : Each n (Value declared) → σ → Flow Stop σ)

/-- Go through values that are parts: their heads, and their parts if they have any. -/
def part (values : Each n (Value declared)) (s : σ) : Flow Stop σ := do
  let s ← Flow.step (visit.heads values s)
  if (values 0).hasParts then below values s else pure s

/-- Go through the parts of values that have them in one run each. -/
def throughRuns (names : Option (TypeInfo declared)) :
    Nat → Each n (List (Value declared)) → σ → Flow Stop σ
  | 0, _, _ => Flow.out
  | fuel + 1, runs, s =>
    let s := visit.tell (nameOf names runs) s
    match firstOf runs with
    | (.all next, runs) => do
      let s ← visit.part below next s
      throughRuns names fuel runs s
    | (.none, _) => pure s
    | (.some ended, _) => Flow.step (visit.uneven ended s)

/-- What is left of the run of a list, and the runs after it, with the next run where the run is all
visited and one is left. -/
def nextRun : List (Value declared) → List (Run (Value declared)) →
    List (Value declared) × List (Run (Value declared))
  | [], next :: more => (next.items, more)
  | run, more => (run, more)

/-- The next run of each list whose run so far is all visited. -/
def nextRuns (runs : Each n (List (Value declared))) (more : Each n (List (Run (Value declared)))) :
    Each n (List (Value declared)) × Each n (List (Run (Value declared))) :=
  (fun i => (nextRun (runs i) (more i)).1, fun i => (nextRun (runs i) (more i)).2)

/-- The length of the shortest run. -/
def shortest (runs : Each n (List (Value declared))) : Nat :=
  (List.ofFn fun i => (runs i).length).foldl min maxLen

/-- The item at `place` of each run. -/
def itemsAt (runs : Each n (List (Value declared))) (place : Nat) :
    Flow Stop (Each n (Value declared)) :=
  match among fun i => (runs i)[place]? with
  | .all items => pure items
  | _ => Flow.out

/-- Go through the elements of lists: as many of each as the shortest run left has, side by side,
and then the next runs of those that are all visited. -/
def throughElements : Nat → Each n (List (Value declared)) →
    Each n (List (Run (Value declared))) → σ → Flow Stop σ
  | 0, _, _, _ => Flow.out
  | fuel + 1, runs, more, s =>
    let (runs, more) := nextRuns runs more
    let ended := fun i => (runs i).isEmpty
    let step := shortest runs
    if step = 0 then
      if ∃ i, ended i = false then Flow.step (visit.uneven ended s) else pure s
    else do
      let s ← (List.range step).foldlM (fun s place => do
        let items ← itemsAt runs place
        visit.part below items s) s
      throughElements fuel (fun i => (runs i).drop step) more s

/-- Go through the entries of maps side by side, the keys of an entry and then its values. -/
def throughEntries : Nat → Each n (List (Value declared × Value declared)) → σ → Flow Stop σ
  | 0, _, _ => Flow.out
  | fuel + 1, left, s =>
    match nextOf left with
    | (.all entries, left) => do
      let s ← visit.part below (fun i => (entries i).1) s
      let s ← visit.part below (fun i => (entries i).2) s
      throughEntries fuel left s
    | (.none, _) => pure s
    | (.some ended, _) => Flow.step (visit.uneven ended s)

/-- Go through the members of sets side by side. -/
def throughMembers : Nat → Each n (List (Value declared)) → σ → Flow Stop σ
  | 0, _, _ => Flow.out
  | fuel + 1, left, s =>
    match nextOf left with
    | (.all members, left) => do
      let s ← visit.part below members s
      throughMembers fuel left s
    | (.none, _) => pure s
    | (.some ended, _) => Flow.step (visit.uneven ended s)

/-- Go through the parts of maps or of sets. -/
def throughMany (values : Each n (Value declared)) (s : σ) : Flow Stop σ :=
  match values 0 with
  | .map first => do
    let maps := fun i => (values i).mapOr first
    let s ← Flow.step (visit.lens (fun i => (maps i).length) s)
    visit.throughEntries below ((maps 0).length + 1) maps s
  | .set first => do
    let sets := fun i => (values i).setOr first
    let s ← Flow.step (visit.lens (fun i => (sets i).length) s)
    visit.throughMembers below ((sets 0).length + 1) sets s
  | _ => pure s

/-- Go through the parts of values whose heads are visited. -/
def throughParts (values : Each n (Value declared)) (s : σ) : Flow Stop σ := do
  let (found, s) ← visit.runs values s
  match found with
  | .of names runs => visit.throughRuns below names ((runs 0).length + 1) runs s
  | .elements more =>
    visit.throughElements below (((more 0).flatMap Run.items).length + 1) (fun _ => []) more s
  | .done => pure s
  | .not => visit.throughMany below values s

end Near

/-! ### The walk, far from where it began -/

/-- The parts yet to be visited of values side by side. -/
inductive Parts (declared : Nat → List Text) (n : Nat) where
  | values (values : Each n (List (Value declared)))
  /-- What is left of the run of each list, and the runs after it. -/
  | elements (runs : Each n (List (Value declared))) (more : Each n (List (Run (Value declared))))
  | fields (ty : TypeInfo declared) (values : Each n (List (Value declared)))
  /-- The entries left, and the values of the keys last given. -/
  | entries (left : Each n (List (Value declared × Value declared)))
    (values : Option (Each n (Value declared)))
  | members (left : Each n (List (Value declared)))

namespace Parts

/-- The entries of maps or the members of sets, and the number of them in each. -/
def ofMany (values : Each n (Value declared)) : Option (Each n Nat) × Parts declared n :=
  match values 0 with
  | .map first =>
    let maps := fun i => (values i).mapOr first
    (some fun i => (maps i).length, .entries maps none)
  | .set first =>
    let sets := fun i => (values i).setOr first
    (some fun i => (sets i).length, .members sets)
  | _ => (none, .values fun _ => [])

/-- The next part of each value, and what is left. -/
def next : Parts declared n → Among n (Value declared) × Parts declared n
  | .values vs => ((firstOf vs).1, .values (firstOf vs).2)
  | .fields ty vs => ((firstOf vs).1, .fields ty (firstOf vs).2)
  | .elements runs more =>
    let (runs, more) := nextRuns runs more
    ((firstOf runs).1, .elements (firstOf runs).2 more)
  | .entries left (some vs) => (.all vs, .entries left none)
  | .entries left none =>
    match nextOf left with
    | (.all next, left) => (.all fun i => (next i).1, .entries left (some fun i => (next i).2))
    | (.none, left) => (.none, .entries left none)
    | (.some ended, left) => (.some ended, .entries left none)
  | .members left => ((nextOf left).1, .members (nextOf left).2)

/-- The name of the next part, if it is a record's field. -/
def name : Parts declared n → Option Text
  | .fields ty vs => nextName ty (vs 0)
  | _ => none

/-- Whether no part of any of the values is left. -/
def isDone : Parts declared n → Bool
  | .values vs | .fields _ vs => decide (∀ i, (vs i).isEmpty)
  | .elements runs more => decide ((∀ i, (runs i).isEmpty) ∧ ∀ i, (more i).isEmpty)
  | .entries left vs => vs.isNone && decide (∀ i, (left i).length = 0)
  | .members left => decide (∀ i, (left i).length = 0)

end Parts

/-- The parts of values whose heads are visited, if the walk is to go through them; with the step of
the visitor that comes before the parts. -/
def parts (values : Each n (Value declared)) (s : σ) :
    Flow Stop (Option (Parts declared n) × σ) := do
  let (found, s) ← visit.runs values s
  match found with
  | .of (some ty) runs => pure (some (.fields ty runs), s)
  | .of none runs => pure (some (.values runs), s)
  | .elements more =>
    let (runs, more) := nextRuns (fun _ => []) more
    if ∀ i, (more i).isEmpty then pure (some (.values runs), s)
    else pure (some (.elements runs more), s)
  | .done => pure (none, s)
  | .not =>
    match Parts.ofMany values with
    | (some lens, parts) => do
      let s ← Flow.step (visit.lens lens s)
      pure (some parts, s)
    | (none, parts) => pure (some parts, s)

/-- Go through the parts `current`, and then those that wait. -/
def throughStack : Nat → Parts declared n → List (Parts declared n) → σ → Flow Stop σ
  | 0, _, _, _ => Flow.out
  | fuel + 1, current, waiting, s =>
    let s := visit.tell current.name s
    match current.next with
    | (.all next, outer) => do
      let s ← Flow.step (visit.heads next s)
      if (next 0).hasParts then do
        let (found, s) ← visit.parts next s
        match found with
        | none => throughStack fuel outer waiting s
        | some inner =>
          -- What has no part left is not come back to.
          throughStack fuel inner (if outer.isDone then waiting else outer :: waiting) s
      else throughStack fuel outer waiting s
    | (.none, _) =>
      match waiting with
      | outer :: waiting => throughStack fuel outer waiting s
      | [] => pure s
    | (.some ended, _) => Flow.step (visit.uneven ended s)

/-- Go through the parts of values with a stack of the walk's own. -/
def throughFar (values : Each n (Value declared)) (s : σ) : Flow Stop σ := do
  let (found, s) ← visit.parts values s
  match found with
  | none => pure s
  | some current => visit.throughStack (2 * (values 0).size) current [] s

/-- Go through the parts of values, with `left` levels yet to go down by a call. -/
def through : Nat → Each n (Value declared) → σ → Flow Stop σ
  | 0, values, s => visit.throughParts visit.throughFar values s
  | left + 1, values, s => visit.throughParts (through left) values s

/-- How many levels of a value the walk goes down by calling itself. -/
def near : Nat := 64

/-- Go through values side by side: their heads, then their parts in order, each part a value gone
through the same way before the next. -/
def walk (values : Each n (Value declared)) (s : σ) : Flow Stop σ := do
  let s ← Flow.step (visit.heads values s)
  if (values 0).hasParts then visit.through near values s else pure s

end Visit

/-! ### The three visitors -/

/-- The order of the items of a list and as many of the Ints from `n` on, `left` in all, as there
are items.  An item and an Int are told apart by their heads. -/
def cmpZipped : List (Value declared) → Int64 → Nat → Ordering
  | item :: items, n, left + 1 =>
    match Value.cmpHeads item (.int n) with
    | .eq => cmpZipped items (n + 1) left
    | unequal => unequal
  | _, _, _ => .eq

/-- The order of a list that holds its elements and the list of the Ints from `lo` to `hi`. -/
def cmpHeldInts (held : Elements (Value declared)) (lo hi : Int64) : Ordering :=
  match cmpZipped (Value.held held) lo (absDiff hi lo + 1) with
  | .eq => compare (Value.listLen held) (absDiff hi lo + 1)
  | unequal => unequal

/-- The order of two lists of which one at least holds no element. -/
def cmpWithoutElements (a b : Elements (Value declared)) : Option Ordering :=
  match Value.rangeEnds a, Value.rangeEnds b with
  | none, none => none
  | some (aLo, aHi), some (bLo, bHi) =>
    some ((compare aLo.toInt bLo.toInt).then (compare aHi.toInt bHi.toInt))
  | none, some (lo, hi) => some (cmpHeldInts a lo hi)
  | some (lo, hi), none => some (cmpHeldInts b lo hi).swap

/-- Whether two values are equal: the walk stops at the first step that tells them apart. -/
def equal : Visit declared 1 Unit Unit where
  names := false
  heads values _ := if Value.cmpHeads (values 0) (values 1) = .eq then .ok () else .error ()
  lens lens _ := if lens 0 = lens 1 then .ok () else .error ()
  lists lists _ :=
    match cmpWithoutElements (lists 0) (lists 1) with
    | none =>
      if Value.listLen (lists 0) = Value.listLen (lists 1) then .ok (true, ()) else .error ()
    | some .eq => .ok (false, ())
    | some _ => .error ()
  name _ s := s
  uneven _ _ := .error ()

/-- The order of two values: that of the first step at which they differ. -/
def order : Visit declared 1 Unit Ordering where
  names := false
  heads values _ :=
    match Value.cmpHeads (values 0) (values 1) with
    | .eq => .ok ()
    | unequal => .error unequal
  lens _ _ := .ok ()
  lists lists _ :=
    match cmpWithoutElements (lists 0) (lists 1) with
    | none => .ok (true, ())
    | some .eq => .ok (false, ())
    | some unequal => .error unequal
  name _ s := s
  uneven ended _ := .error (if ended 0 then .lt else .gt)

/-- The hash of a value, with a hasher of any kind: `write` feeds it. -/
def hashed (write : Value.Write → σ → σ) : Visit declared 0 σ Empty where
  names := true
  heads values s := .ok ((Value.hashHead (values 0)).foldl (fun s w => write w s) s)
  lens lens s := .ok (write (.usize (lens 0)) s)
  lists lists s :=
    let s := write (.usize (Value.listLen (lists 0))) s
    match Value.ascendingInts (lists 0) with
    | some (lo, _) => .ok (false, write (.i64 lo) (write (.u8 1) s))
    | none => .ok (true, write (.u8 0) s)
  name name s := write (.str name) s
  uneven _ s := .ok s

namespace Value

/-- Whether two values are equal. -/
def eq (a b : Value declared) : Option Bool :=
  (equal.walk ![a, b] ()).run.map fun
    | .ok _ => true
    | .error _ => false

/-- The order of two values. -/
def cmp (a b : Value declared) : Option Ordering :=
  (order.walk ![a, b] ()).run.map fun
    | .ok _ => .eq
    | .error unequal => unequal

/-- Feed a value to a hasher. -/
def hash (write : Write → σ → σ) (value : Value declared) (s : σ) : Option σ :=
  ((hashed write).walk ![value] s).run.bind fun
    | .ok s => some s
    | .error stop => nomatch stop

end Value

end Silt.Collections
