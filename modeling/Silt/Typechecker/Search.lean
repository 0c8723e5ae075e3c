import Silt.Typechecker.Pattern
import Silt.Typechecker.Ranges

/-!
# The search for a value that no row matches

This file models `Search` of `typechecker/exhaustiveness.rs`: one run of the matrix algorithm, with
its bounds, and `check_exhaustiveness`, which asks it of the arms of a match.

The rows of a matrix hold references to patterns, which the code compares by address. A reference is
a `Place`: a path in one of the patterns the search was given, or the one static wildcard.

The code counts how deep it is; here `levels` is how many levels it may still go down.

## Main definitions

* `Silt.Typechecker.uncovered`: a row of values that none of the rows matches.
* `Silt.Typechecker.checkExhaustiveness`: the report on the arms of a match.
-/

namespace Silt.Typechecker

/-- A reference to a pattern. -/
inductive Place where
  /-- The static wildcard. -/
  | wild
  /-- The pattern at the path in the pattern `root` of those given. -/
  | inside (root : Nat) (path : List Nat)
  deriving DecidableEq, Repr

/-- The patterns directly in a pattern. -/
def Pat.children : Pat → List Pat
  | .ctor _ args => args
  | .or alts => alts
  | .wild | .lit | .intRange _ _ => []

namespace Place

/-- The pattern at a place. -/
def deref (roots : List Pat) : Place → Pat
  | .wild => .wild
  | .inside root path =>
    path.foldl (fun pat i => pat.children.getD i .wild) (roots.getD root .wild)

/-- The place of a child. -/
def child : Place → Nat → Place
  | .wild, _ => .wild
  | .inside root path, i => .inside root (path ++ [i])

theorem deref_child (roots : List Pat) (place : Place) (i : Nat) :
    (place.child i).deref roots = (place.deref roots).children.getD i .wild := by
  cases place with
  | wild => rfl
  | inside root path => simp [child, deref]

end Place

/-- A row of the matrix: one pattern for each column. -/
abbrev Row := List Place

/-- The search gave up at one of its bounds. -/
structure Unverified where
  deriving DecidableEq, Repr

/-- A run of the search, with the number of patterns it has looked at. -/
abbrev Search := ExceptT Unverified (StateM Nat)

/-- How many patterns one search may look at. -/
def maxCells : Nat := 32000000

/-- How deep one search may recurse. -/
def maxDepth : Nat := 1000

def Pat.isWild : Pat → Bool
  | .wild => true
  | _ => false

/-- The pattern matches no value that could be counted on. -/
def coversNothing : Pat → Bool
  | .lit => true
  | .intRange lo hi => hi < lo
  | .or alts => alts.isEmpty
  | .wild | .ctor _ _ => false

/-- Two matrices are the same rows of the same patterns: the places are compared. -/
def sameRows (a b : List Row) : Bool := a = b

mutual

/-- The places of the alternatives of a pattern, of those that are or-patterns too. -/
def alternatives : Pat → Place → List Place
  | .or alts, place => alternativesFrom alts place 0
  | .wild, place | .ctor _ _, place | .lit, place | .intRange _ _, place => [place]

def alternativesFrom : List Pat → Place → Nat → List Place
  | [], _, _ => []
  | alt :: alts, place, i => alternatives alt (place.child i) ++ alternativesFrom alts place (i + 1)

end

section

variable (roots : List Pat)

/-- The row, as one row for each alternative of an or-pattern in its first column. -/
def expandOr : Row → List Row
  | [] => []
  | first :: rest => (alternatives (first.deref roots) first).map (· :: rest)

/-- The rows that do not test their first column, without it. -/
def defaultRows (rows : List Row) : List Row :=
  rows.filterMap fun
    | [] => none
    | first :: rest => if (first.deref roots).isWild then some rest else none

/-- The place of an argument of the pattern, or the static wildcard when it has none. -/
def argPlace (first : Place) (args : List Pat) (i : Nat) : Place :=
  if i < args.length then first.child i else .wild

/-- The place of the argument that the record pattern gives for the name. -/
def fieldPlace (first : Place) (names : List Symbol) (args : List Pat) (name : Symbol) : Place :=
  match names.idxOf? name with
  | some i => argPlace first args i
  | none => .wild

/-- The places of the fields that a pattern in the first column has for the constructor, or `none`
when it does not match a value built with it. -/
def specializeFirst (first : Place) (ctor : CtorId) (arity : Nat) : Option (List Place) :=
  match first.deref roots with
  | .wild => some (List.replicate arity .wild)
  | .ctor (.record names) args =>
    match ctor with
    | .record all => some (all.map (fieldPlace first names args))
    | _ => none
  | .ctor id args =>
    if id = ctor then some ((List.range arity).map (argPlace first args)) else none
  | .or _ | .lit | .intRange _ _ => none

/-- The rows that match a value built with the constructor in the first column, with that column
replaced by the columns of its fields. -/
def specialize (rows : List Row) (ctor : CtorId) (arity : Nat) : List Row :=
  rows.filterMap fun
    | [] => none
    | first :: rest => (specializeFirst roots first ctor arity).map (· ++ rest)

/-- The number of elements of a tuple pattern in the first column. -/
def tupleArity : Row → Option Nat
  | [] => none
  | first :: _ =>
    match first.deref roots with
    | .ctor .tuple args => some args.length
    | _ => none

/-- The fields that a record pattern in the first column names. -/
def recordNames : Row → List Symbol
  | [] => []
  | first :: _ =>
    match first.deref roots with
    | .ctor (.record names) _ => names
    | _ => []

/-- Add the names that are new. -/
def addNames (names given : List Symbol) : List Symbol :=
  given.foldl (fun names name => if name ∈ names then names else names ++ [name]) names

/-- Every constructor of the type that `id` is a constructor of, with its number of fields. -/
def signature (enums : TypeRef → Option EnumInfo) (id : CtorId) (rows : List Row) :
    Option (List (CtorId × Nat)) :=
  match id with
  | .tuple => some [(.tuple, (rows.filterMap (tupleArity roots)).foldl max 0)]
  | .record _ =>
    let names := rows.foldl (fun names row => addNames names (recordNames roots row)) []
    some [(.record names, names.length)]
  | .variant ty _ => (enums ty).map fun info => (distinctVariants info).map fun variant =>
      (.variant ty variant.1, variant.2.fieldTypes.length)
  | .bool _ => some [(.bool true, 0), (.bool false, 0)]
  | .nil | .cons => some [(.nil, 0), (.cons, 2)]

/-- The range of an integer pattern in the first column. -/
def rangeOf : Row → Option Range
  | [] => none
  | first :: _ =>
    match first.deref roots with
    | .intRange lo hi => if lo ≤ hi then some (lo.toInt, hi.toInt) else none
    | _ => none

/-- The rows whose first column takes the integers of the interval, without it. -/
def keptRows (rows : List Row) (interval : Range) : List Row :=
  rows.filterMap fun
    | [] => none
    | first :: rest =>
      match first.deref roots with
      | .wild => some rest
      | .intRange lo hi =>
        if Range.holds (lo.toInt, hi.toInt) interval then some rest else none
      | _ => none

/-- Exchange the first element and the one at `column`. -/
def swapFirst {α : Type} (column : Nat) : List α → List α
  | [] => []
  | first :: rest =>
    match column with
    | 0 => first :: rest
    | column + 1 => rest.getD column first :: rest.set column first

/-- Look for values that the rows leave out, constructor by constructor: `look` searches the matrix
of the fields. A matrix that was shown covered is not looked at again. -/
def uncoveredCtors (look : List Row → Nat → Search (Option (List Witness))) (rows : List Row)
    (width : Nat) : List (CtorId × Nat) → List (List Row) → Search (Option (List Witness))
  | [], _ => pure none
  | (ctor, arity) :: signature, covered => do
    let fieldRows := specialize roots rows ctor arity
    if covered.any fun done => sameRows done fieldRows then
      uncoveredCtors look rows width signature covered
    else
      match ← look fieldRows (arity + width - 1) with
      | some fields => pure (some (.ctor ctor (fields.take arity) :: fields.drop arity))
      | none => uncoveredCtors look rows width signature (covered ++ [fieldRows])

/-- Look for values that the rows leave out, interval by interval. -/
def uncoveredIntervals (look : List Row → Nat → Search (Option (List Witness))) (rows : List Row)
    (width : Nat) : List Range → Search (Option (List Witness))
  | [] => pure none
  | interval :: intervals => do
    match ← look (keptRows roots rows interval) (width - 1) with
    | some rest =>
      -- The integer of the interval nearest to zero.
      let shown := Int64.ofInt (max interval.1 (min 0 interval.2))
      pure (some (.int shown :: rest))
    | none => uncoveredIntervals look rows width intervals

/-- `uncovered` for rows whose first column tests integers. -/
def uncoveredIntColumn (look : List Row → Nat → Search (Option (List Witness))) (rows : List Row)
    (width : Nat) : Search (Option (List Witness)) := do
  let ranges := sortRanges (rows.filterMap (rangeOf roots))
  if firstGap Int64.minValue.toInt ranges < Int64.maxValue.toInt + 1 then
    let rest ← look (defaultRows roots rows) (width - 1)
    pure (rest.map (.int (outside ranges) :: ·))
  else uncoveredIntervals roots look rows width (intervals ranges)

/-- What the first column of the rows tests: a constructor, or integers. -/
inductive Head where
  | ctor (id : CtorId)
  | int
  | untested
  deriving DecidableEq, Repr

/-- What a pattern in the first column tests. -/
def headOf : Row → Head
  | [] => .untested
  | first :: _ =>
    match first.deref roots with
    | .ctor id _ => .ctor id
    | .intRange _ _ => .int
    | .wild | .or _ | .lit => .untested

/-- The first constructor of the column, or else integers if there are any. -/
def columnHead (rows : List Row) : Head :=
  match rows.findSome? fun row => match headOf roots row with
    | .ctor id => some id
    | .int | .untested => none with
  | some id => .ctor id
  | none => if rows.any fun row => headOf roots row = .int then .int else .untested

/-- Split the values by the first column of the rows, which have no or-pattern there. -/
def uncoveredColumn (enums : TypeRef → Option EnumInfo)
    (look : List Row → Nat → Search (Option (List Witness))) (rows : List Row) (width : Nat) :
    Search (Option (List Witness)) :=
  -- Of a value the rows left do not test, nothing is said.
  let untested : Search (Option (List Witness)) := do
    let rest ← look (defaultRows roots rows) (width - 1)
    pure (rest.map (.any :: ·))
  match columnHead roots rows with
  | .ctor id =>
    match signature roots enums id rows with
    | none => untested
    | some signature => uncoveredCtors roots look rows width signature []
  | .int => uncoveredIntColumn roots look rows width
  | .untested => untested

/-- The column to split the values by: the first one the first row tests. -/
def splitColumn : List Row → Nat
  | [] => 0
  | row :: _ => (row.findIdx? fun place => !(place.deref roots).isWild).getD 0

/-- The rows without those with a test that covers nothing, which take part in no answer. -/
def countedRows (rows : List Row) : List Row :=
  rows.filter fun row => !row.any fun place => coversNothing (place.deref roots)

/-- The rows with the alternatives in their first column as rows of their own. -/
def expandRows (rows : List Row) : List Row :=
  (rows.flatMap (expandOr roots)).filter fun row =>
    !row.head?.any fun place => coversNothing (place.deref roots)

/-- A row of `width` values that none of the rows matches, or `none` when the rows together match
every one. The rows have that width. -/
def uncovered (enums : TypeRef → Option EnumInfo) :
    Nat → List Row → Nat → Search (Option (List Witness))
  | levels, rows, width => do
    let rows := countedRows roots rows
    if rows.isEmpty then
      return some (List.replicate width .any)
    if width = 0 then
      return none
    modify (· + rows.length * width)
    if maxCells < (← get) then
      throw ⟨⟩
    match levels with
    | 0 => throw ⟨⟩
    | levels + 1 =>
      -- A row that takes every value answers alone.
      if rows.any fun row => row.all fun place => (place.deref roots).isWild then
        return none
      let column := splitColumn roots rows
      let expanded := expandRows roots (rows.map (swapFirst column))
      let found ← uncoveredColumn roots enums (uncovered enums levels) expanded width
      return found.map (swapFirst column)

/-- Whether the rows together match every row of `width` values. -/
def covers (enums : TypeRef → Option EnumInfo) (rows : List Row) (width : Nat) : Search Bool := do
  return (← uncovered roots enums (maxDepth + 1) rows width).isNone

end

/-- The matrix of patterns that are each for the same value. -/
def oneColumn (pats : List Pat) : List Row :=
  (List.range pats.length).map fun i => [.inside i []]

/-- Whether the patterns, each for the same value, match every value of its type between them.
`cells` is the number of patterns that the searches of the caller have looked at. -/
def coverTogether (enums : TypeRef → Option EnumInfo) (pats : List Pat) (cells : Nat) :
    Except Unverified Bool × Nat :=
  (covers pats enums (oneColumn pats) 1).run.run cells

/-- An arm of a match: whether it has a guard. -/
structure MatchArm where
  guard : Bool
  deriving DecidableEq, Repr

/-- An error that is reported, with its help. -/
structure Report where
  message : String
  help : Option String
  deriving DecidableEq, Repr

/-- The type has no value. -/
def isUninhabited : Ty → Bool
  | .never => true
  | _ => false

/-- The patterns of the arms without a guard. -/
def unguarded (arms : List MatchArm) (pats : List Pat) : List Pat :=
  (arms.zip pats).filterMap fun arm => if arm.1.guard then none else some arm.2

/-- Report a match whose arms leave a value of the scrutinee's type unmatched. `missingDescription`
says in words what is missing. -/
def checkExhaustiveness (enums : TypeRef → Option EnumInfo)
    (missingDescription : List Pat → Ty → String) (arms : List MatchArm) (pats : List Pat)
    (scrutineeTy : Ty) : Option Report :=
  -- An arm with a guard may not be taken: it covers nothing.
  let rows := unguarded arms pats
  if arms.isEmpty && isUninhabited scrutineeTy then none
  else
    match (coverTogether enums rows 0).1 with
    | .ok true => none
    | .ok false =>
      let guarded := !arms.isEmpty && rows.isEmpty
      some {
        message := "non-exhaustive match: " ++ missingDescription rows scrutineeTy
        help := if guarded then
            some ("every arm has a guard, and guards are not counted for coverage; end " ++
              "with an arm without one (`_ -> ...`)")
          else none }
    | .error _ => some {
        message := "could not verify that the match is exhaustive: its patterns are too " ++
          "large to analyse; add a wildcard arm (`_ -> ...`)"
        help := none }

end Silt.Typechecker
