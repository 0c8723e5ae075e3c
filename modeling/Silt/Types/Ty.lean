import Mathlib.Data.List.Basic

/-!
# Types

The types of the checker.  A type is a variable, or a shape with the types it is made of in order:
the parameters of a function and then its result, the key of a map and then its value, the fields of
a record in the order of their names.

## Main definitions

* `Ty` : a type.
* `Ty.substituteVars` : a type with types for variables.
* `Ty.instanceOf` : whether one type is another with a type for each of its variables.
-/

namespace Silt.Types

/-- A unification variable. -/
abbrev TyVar := Nat

/-- A name, interned. -/
abbrev Symbol := Nat

/-- A trait. -/
abbrev TraitKey := Nat

/-- A named type: a builtin one, or one that a module declares. -/
inductive TypeRef where
  | builtin (name : String)
  | user (id : Nat)
  deriving DecidableEq

/-- What follows the listed fields of a record. -/
inductive RowTail where
  | closed
  | var (v : TyVar)
  /-- The row of an annotation, by the variable it stands for. -/
  | rigid (r : TyVar)
  deriving DecidableEq

/-- The head of a type constructor. -/
inductive Head where
  | named (ref : TypeRef)
  | list
  | map
  | set
  | channel
  deriving DecidableEq

/-- What a type is but for the types it is made of. -/
inductive Shape where
  | int
  | float
  | bool
  | string
  | unit
  /-- A variable of an annotation. -/
  | rigid (r : TyVar)
  | error
  | never
  /-- The parameters, and then the result. -/
  | fn
  | list
  | tuple
  | generic (name : TypeRef)
  /-- The key, and then the value. -/
  | map
  | set
  | channel
  /-- The receiver. -/
  | assocProj (traitName : TraitKey) (assocName : Symbol)
  /-- The fields, in the order of their names. -/
  | anonRecord (names : List Symbol) (tail : RowTail)
  /-- A constructor variable, and what it is applied to. -/
  | app
  /-- A type constructor: all its arguments but the first. -/
  | con (head : Head)
  deriving DecidableEq

/-- A type. -/
inductive Ty where
  | var (v : TyVar)
  | node (shape : Shape) (parts : List Ty)

namespace Ty

mutual

def decEq : (s t : Ty) → Decidable (s = t)
  | .var v, .var w => if h : v = w then isTrue (h ▸ rfl) else isFalse fun e => h (by cases e; rfl)
  | .var _, .node _ _ => isFalse nofun
  | .node _ _, .var _ => isFalse nofun
  | .node a as, .node b bs =>
    if h : a = b then
      match decEqAll as bs with
      | isTrue hs => isTrue (h ▸ hs ▸ rfl)
      | isFalse hs => isFalse fun e => hs (by cases e; rfl)
    else isFalse fun e => h (by cases e; rfl)

def decEqAll : (ss ts : List Ty) → Decidable (ss = ts)
  | [], [] => isTrue rfl
  | [], _ :: _ => isFalse nofun
  | _ :: _, [] => isFalse nofun
  | s :: ss, t :: ts =>
    match decEq s t, decEqAll ss ts with
    | isTrue h, isTrue hs => isTrue (h ▸ hs ▸ rfl)
    | isFalse h, _ => isFalse fun e => h (by cases e; rfl)
    | _, isFalse hs => isFalse fun e => hs (by cases e; rfl)

end

instance : DecidableEq Ty := decEq

mutual

/-- How many shapes and variables a type is written with. -/
def size : Ty → Nat
  | .var _ => 1
  | .node _ parts => sizes parts + 1

def sizes : List Ty → Nat
  | [] => 0
  | t :: ts => t.size + sizes ts

end

/-- The named type at the head of a canonical type. -/
def headOfCanon : Ty → Option TypeRef
  | .var _ => none
  | .node shape _ =>
    match shape with
    | .int => some (.builtin "Int")
    | .float => some (.builtin "Float")
    | .bool => some (.builtin "Bool")
    | .string => some (.builtin "String")
    | .unit => some (.builtin "Unit")
    | .list | .con .list => some (.builtin "List")
    | .map | .con .map => some (.builtin "Map")
    | .set | .con .set => some (.builtin "Set")
    | .channel | .con .channel => some (.builtin "Channel")
    | .tuple => some (.builtin "Tuple")
    | .fn => some (.builtin "Fn")
    | .generic name => some name
    | .con (.named ref) => some ref
    | .app | .rigid _ | .error | .never | .assocProj _ _ | .anonRecord _ _ => none

end Ty

/-- The type of a constructor with the arguments `rest` after its first, applied to `arg`. -/
def Head.apply (head : Head) (rest : List Ty) (arg : Ty) : Ty :=
  match head with
  | .named ref => .node (.generic ref) (arg :: rest)
  | .list => .node .list [arg]
  | .set => .node .set [arg]
  | .channel => .node .channel [arg]
  | .map => .node .map [arg, rest.getLastD (.node .error [])]

namespace Ty

/-- `head` applied to `arg`: the full type where `head` is a type constructor. -/
def applied (head arg : Ty) : Ty :=
  match head with
  | .node (.con h) rest => h.apply rest arg
  | other => .node .app [other, arg]

/-- The type of a shape and its parts; an application is the full type if its head is a type
constructor. -/
def rebuilt (shape : Shape) (parts : List Ty) : Ty :=
  match shape, parts with
  | .app, [head, arg] => applied head arg
  | shape, parts => .node shape parts

/-! ### Fields -/

/-- The fields with one more, in the order of the names; a field that is there stays. -/
def insertField (name : Symbol) (t : Ty) : List (Symbol × Ty) → List (Symbol × Ty)
  | [] => [(name, t)]
  | (n, u) :: fields =>
    if name < n then (name, t) :: (n, u) :: fields
    else if name = n then (n, u) :: fields
    else (n, u) :: insertField name t fields

/-- The record with the fields. -/
def record (fields : List (Symbol × Ty)) (tail : RowTail) : Ty :=
  .node (.anonRecord (fields.map Prod.fst) tail) (fields.map Prod.snd)

/-! ### Substitution -/

/-- The type with the types of `mapping` for variables; `none` if it takes more than `fuel` levels,
as it does where a row stands for a record that has the row in it. -/
def substituteVars (mapping : TyVar → Option Ty) : Nat → Ty → Option Ty
  | 0, _ => none
  | _ + 1, .var v => some ((mapping v).getD (.var v))
  | fuel + 1, .node shape parts => do
    let parts ← parts.mapM (substituteVars mapping fuel)
    match shape with
    | .anonRecord names (.var v) =>
      match mapping v with
      | some (.node (.anonRecord extraNames extraTail) extra) => do
        let merged ← (extraNames.zip extra).foldlM (fun merged (name, t) =>
          if name ∈ merged.map Prod.fst then some merged
          else do
            let t ← substituteVars mapping fuel t
            some (insertField name t merged)) (names.zip parts)
        some (record merged extraTail)
      | some (.var w) => some (.node (.anonRecord names (.var w)) parts)
      | some (.node (.rigid r) _) => some (.node (.anonRecord names (.rigid r)) parts)
      | some other => some other
      | none => some (.node (.anonRecord names (.var v)) parts)
    | shape => some (rebuilt shape parts)

/-! ### Instances -/

/-- What variables stand for. -/
abbrev Stands := List (TyVar × Ty)

/-- Whether two types of the shape are compared part by part, and not as a whole. -/
def byParts : Shape → Bool
  | .fn | .list | .set | .channel | .tuple | .generic _ | .map | .app | .con _ => true
  | .anonRecord _ .closed => true
  | _ => false

mutual

/-- What the variables of `general` stand for in the instance `t` of it, beside those known. -/
def instanceOf : Ty → Ty → Stands → Option Stands
  | .var v, t, stands =>
    match stands.lookup v with
    | some known => if known = t then some stands else none
    | none => some ((v, t) :: stands)
  | .node _ _, .var _, _ => none
  | .node g gs, .node a as, stands =>
    if byParts g then if g = a then instanceAll gs as stands else none
    else if g = a ∧ gs = as then some stands else none

def instanceAll : List Ty → List Ty → Stands → Option Stands
  | [], [], stands => some stands
  | g :: gs, a :: as, stands => do
    let stands ← instanceOf g a stands
    instanceAll gs as stands
  | _, _, _ => none

end

end Ty

end Silt.Types
