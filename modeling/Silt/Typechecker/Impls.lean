import Mathlib.Data.List.Sort
import Silt.Types.Ty

/-!
# The impls a use reaches

A trait may have several impls for one type: at different trait arguments, or for different
instantiations of the type.  An impl is refused if a use could mean it as well as one written
before: its trait arguments and the type it is for are unified with the other's, together.  A use
asks for the impls that fit it: `implsFitting` unifies the trait arguments, and then, of an impl for
some instantiations of its type only, the type.

The types are canonical, with no variable of the session.  `probe_unify` is modelled with a bound on
its depth; `deep` says that it was reached.

## Main definitions

* `probeUnify`, `couldUnify` : unification in a substitution of its own.
* `Plain` : the types built of named types, lists, maps, tuples, functions and variables.
* `Impl`, `Accepted`, `Use` : an impl, the impls the check accepts, and a use.
* `implsFitting` : the impls that fit a use.
-/

namespace Silt.Impls

open Silt.Types

/-! ### Unification -/

mutual

/-- The variables of a type, in the order they stand in it. -/
def freeVarsIn : Ty → List TyVar
  | .var v => [v]
  | .node _ parts => freeVarsInAll parts

def freeVarsInAll : List Ty → List TyVar
  | [] => []
  | t :: ts => freeVarsIn t ++ freeVarsInAll ts

end

/-- What the variables stand for. -/
abbrev Subst : Type := List (TyVar × Ty)

/-- Why there is no answer: the types are apart, or the depth was reached. -/
inductive Fail
  | apart
  | deep
deriving DecidableEq

/-- A variable the substitution binds, followed to what it stands for. -/
def follow (s : Subst) : Nat → Ty → Except Fail Ty
  | 0, _ => .error .deep
  | fuel + 1, .var v =>
    match s.lookup v with
    | some next => follow s fuel next
    | none => .ok (.var v)
  | _ + 1, t => .ok t

/-- Whether the variable is in the type, read through the substitution. -/
def occurs (s : Subst) (v : TyVar) : Nat → Ty → Except Fail Bool
  | 0, _ => .error .deep
  | fuel + 1, t =>
    (freeVarsIn t).anyM fun w =>
      if w = v then .ok true
      else
        match s.lookup w with
        | some bound => occurs s v fuel bound
        | none => .ok false

/-- The variable bound to the type, unless it is in it. -/
def bindVar (fuel : Nat) (x : TyVar) (other : Ty) (s : Subst) : Except Fail Subst := do
  if ← occurs s x fuel other then .error .apart else .ok ((x, other) :: s)

/-- Whether two types of the shape are unified part by part. -/
def unifiesByParts : Shape → Bool
  | .list | .set | .channel | .map | .tuple | .fn | .generic _ => true
  | _ => false

/-- Unify the two types in the substitution alone. -/
def probeUnify : Nat → Ty → Ty → Subst → Except Fail Subst
  | 0, _, _, _ => .error .deep
  | fuel + 1, a, b, s => do
    let a ← follow s (fuel + 1) a
    let b ← follow s (fuel + 1) b
    match a, b with
    | .node .error _, _ => .ok s
    | _, .node .error _ => .ok s
    | .var x, .var y => if x = y then .ok s else bindVar fuel x (.var y) s
    | .var x, .node g ys => bindVar fuel x (.node g ys) s
    | .node f xs, .var y => bindVar fuel y (.node f xs) s
    -- a projection is decided later
    | .node (.assocProj _ _) _, .node _ _ => .ok s
    | .node _ _, .node (.assocProj _ _) _ => .ok s
    | .node (.anonRecord names tail) xs, .node (.anonRecord names' tail') ys => do
      -- a field one of them lacks is in the other's open row, if it has one
      let s ← (names.zip xs).foldlM (fun s field =>
        match (names'.zip ys).lookup field.1 with
        | some y => probeUnify fuel field.2 y s
        | none => if tail' matches .var _ then .ok s else .error .apart) s
      if names'.all (fun name => names.contains name || tail matches .var _) then .ok s
      else .error .apart
    | .node f xs, .node g ys =>
      if f = g ∧ unifiesByParts f ∧ xs.length = ys.length then
        (xs.zip ys).foldlM (fun s pair => probeUnify fuel pair.1 pair.2 s) s
      else if f = g ∧ xs = ys then .ok s
      else .error .apart

/-- The types unified pair by pair, in a substitution of their own. -/
def couldUnify (fuel : Nat) (a b : List Ty) : Except Fail Subst :=
  if a.length = b.length then
    (a.zip b).foldlM (fun s pair => probeUnify fuel pair.1 pair.2 s) []
  else .error .apart

/-! ### Impls and uses -/

/-- The builtin types that have a shape of their own. -/
def ownShape (name : TypeRef) : Bool :=
  name ∈ ["Int", "Float", "Bool", "String", "Unit", "List", "Set", "Channel", "Map", "Tuple",
    "Fn"].map TypeRef.builtin

/-- The number of parts a type of the shape has, for the shapes of named types, lists, maps, tuples
and functions (a function has its result, at least). -/
def PartsFit (arity : TypeRef → Nat) (shape : Shape) (n : Nat) : Prop :=
  match shape with
  | .int | .float | .bool | .string | .unit => n = 0
  | .list | .set | .channel => n = 1
  | .map => n = 2
  | .tuple => True
  | .fn => n ≠ 0
  | .generic name => n = arity name ∧ ownShape name = false
  | _ => False

/-- A type built of named types, lists, maps, tuples, functions and variables. -/
inductive Plain (arity : TypeRef → Nat) : Ty → Prop
  | var (v : TyVar) : Plain arity (.var v)
  | node {shape : Shape} {parts : List Ty} (hfit : PartsFit arity shape parts.length)
      (h : ∀ t ∈ parts, Plain arity t) : Plain arity (.node shape parts)

/-- The arguments of a type, by their places. -/
def typeArgsOf : Ty → List Ty
  | .node (.generic _) args | .node .list args | .node .set args | .node .channel args
  | .node .map args | .node (.con _) args | .node .tuple args | .node .fn args => args
  | _ => []

/-- Whether each is a variable of its own. -/
def ownVars : List TyVar → List Ty → Bool
  | _, [] => true
  | seen, .var v :: ts => v ∉ seen && ownVars (v :: seen) ts
  | _, .node _ _ :: _ => false

/-- Whether an impl for the type is for some instantiations of it only: not each argument of the
type a variable of its own. -/
def isInstance : Ty → Bool
  | .node (.con _) _ => false
  -- the tuples of one size, of all there are
  | .node .tuple _ => true
  | t => !ownVars [] (typeArgsOf t)

variable (arity : TypeRef → Nat) (n : Nat) (head : TypeRef)

/-- An impl of a trait of `n` parameters for the named type `head`: its trait arguments, and the
type it is for (a variable, for every tuple or every function). -/
structure Impl where
  args : List Ty
  self : Ty
  length_args : args.length = n
  plain_args : ∀ t ∈ args, Plain arity t
  plain_self : Plain arity self
  head_self : self.headOfCanon = some head ∨ ∃ v, self = .var v

/-- A use, at closed trait arguments and a closed subject. -/
structure Use where
  args : List Ty
  subject : Ty
  length_args : args.length = n
  plain_args : ∀ t ∈ args, Plain arity t
  plain_subject : Plain arity subject
  closed_args : freeVarsInAll args = []
  closed_subject : freeVarsIn subject = []
  head_subject : subject.headOfCanon = some head

variable {arity n head}

/-- The trait arguments, then the type the impl is for. -/
def Impl.full (impl : Impl arity n head) : List Ty :=
  impl.args ++ [impl.self]

/-- The variables of an impl. -/
def Impl.vars (impl : Impl arity n head) : List TyVar :=
  freeVarsInAll impl.full

/-- Impls that the check accepts in the order they are written in: each has variables of its own and
trait arguments of its own (`key`), and could not be meant by a use of one before. -/
structure Accepted {Key : Type} (key : Impl arity n head → Key) where
  list : List (Impl arity n head)
  fresh : list.Pairwise fun earlier later => ∀ v ∈ earlier.vars, v ∉ later.vars
  accepted : list.Pairwise fun earlier later => key earlier ≠ key later ∧
    ∃ fuel, couldUnify fuel later.full earlier.full = .error .apart

/-! ### The impls that fit -/

/-- The outer type, by which the impls are indexed. -/
inductive OuterHead
  | named (name : TypeRef)
  | prim (shape : Shape)
  | list
  | set
  | channel
  | map
  | tuple (parts : Nat)
  | fn (params : Nat)
  | record
deriving DecidableEq

def outerHead : Ty → Option OuterHead
  | .var _ => none
  | .node shape parts =>
    match shape with
    | .generic name => some (.named name)
    | .int | .float | .bool | .string | .unit => some (.prim shape)
    | .list => some .list
    | .set => some .set
    | .channel => some .channel
    | .map => some .map
    | .tuple => some (.tuple parts.length)
    | .fn => some (.fn (parts.length - 1))
    | .anonRecord _ _ => some .record
    | _ => none

/-- The outer type of an impl's first trait argument. -/
def Impl.first (impl : Impl arity n head) : Option OuterHead :=
  impl.args.head?.bind outerHead

/-- The places of the impls whose first trait argument has the outer type (`none` for a
variable). -/
def byFirst (impls : List (Impl arity n head)) (first : Option OuterHead) : List Nat :=
  (List.range impls.length).filter fun i => (impls[i]?).map Impl.first = some first

/-- The places of the impls that are unified with the use's trait arguments. -/
def candidates (impls : List (Impl arity n head)) (args : List Ty) : List Nat :=
  match args.head?.bind outerHead with
  | some first => (byFirst impls (some first) ++ byFirst impls none).mergeSort
  | none => List.range impls.length

/-- Whether the outer types of two arguments are known and differ. -/
def headsApart (arg written : Ty) : Bool :=
  match outerHead arg, outerHead written with
  | some head, some head' => head ≠ head'
  | _, _ => false

/-- A depth that is enough for closed types. -/
def depthOf (ts : List Ty) : Nat :=
  Ty.sizes ts + 2

/-- Whether the impl's trait arguments could be the use's. -/
def argsFit (args : List Ty) (impl : Impl arity n head) : Bool :=
  impl.args.isEmpty ||
    (!(args.zip impl.args).any (fun pair => headsApart pair.1 pair.2) &&
      (couldUnify (depthOf args) args impl.args).toBool)

/-- Whether the impl's type could be the subject, of an impl for some instantiations only. -/
def forSubject (subject : Ty) (impl : Impl arity n head) : Bool :=
  !isInstance impl.self || (probeUnify (depthOf [subject]) subject impl.self []).toBool

/-- The impls whose trait arguments could be the use's, and whose type the subject could be. -/
def implsFitting (impls : List (Impl arity n head)) (subject : Ty) (args : List Ty) :
    List (Impl arity n head) :=
  if args = [] then impls.filter (forSubject subject)
  else
    (((candidates impls args).filterMap fun i => impls[i]?).filter (argsFit args)).filter
      (forSubject subject)

/-- The one impl that fits; none where none does, or several do. -/
def implReached (impls : List (Impl arity n head)) (subject : Ty) (args : List Ty) :
    Option (Impl arity n head) :=
  match implsFitting impls subject args with
  | [impl] => some impl
  | _ => none

end Silt.Impls
