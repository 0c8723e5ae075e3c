import Mathlib.Data.List.Forall2

/-!
# Patterns, values and their types

The pattern checker lowers every pattern to a `Pat`, which says what it tests. This file models the
lowered patterns of `typechecker/exhaustiveness.rs` with the tables of types they refer to, and says
which values a pattern matches and which patterns and values a type has.

A value is told apart as far as patterns do: by constructors and integers. Of a type whose values
cannot be listed (a float, a string, a function, a type that is not known) the values are numbered.

## Main definitions

* `Silt.Typechecker.Tables.shape`: what the values of a type are made of.
* `Silt.Typechecker.Pat.matches`: the values that a pattern matches.
* `Silt.Typechecker.Witness.describes`: the values that a witness stands for.
-/

namespace Silt.Typechecker

/-- A name. -/
abbrev Symbol := Nat

/-- The identity of a declared type. -/
abbrev TypeRef := Nat

/-- A type variable. -/
abbrev TyVar := Nat

/-- A type. An anonymous record has the types of its fields in the order of their names. -/
inductive Ty where
  | int
  | float
  | bool
  | string
  | unit
  | var (var : TyVar)
  | function (params : List Ty) (result : Ty)
  | list (elem : Ty)
  | tuple (elems : List Ty)
  | generic (name : TypeRef) (args : List Ty)
  | map (key value : Ty)
  | set (elem : Ty)
  | channel (elem : Ty)
  | never
  | anonRecord (names : List Symbol) (types : List Ty)
  deriving Repr

structure VariantInfo where
  name : Symbol
  fieldTypes : List Ty

/-- A declared enum. -/
structure EnumInfo where
  /-- The variables that stand for its type parameters. -/
  paramVarIds : List TyVar
  variants : List VariantInfo

/-- A declared record. -/
structure RecordInfo where
  paramVarIds : List TyVar
  fields : List (Symbol × Ty)

/-- The declared types. -/
structure Tables where
  enums : TypeRef → Option EnumInfo
  records : TypeRef → Option RecordInfo

/-- The variants from number `i` on whose names have not been seen. -/
def distinctFrom (i : Nat) (seen : List Symbol) : List VariantInfo → List (Nat × VariantInfo)
  | [] => []
  | variant :: variants =>
    if variant.name ∈ seen then distinctFrom (i + 1) seen variants
    else (i, variant) :: distinctFrom (i + 1) (variant.name :: seen) variants

/-- The variants of an enum: one declared a second time under a name is none of its own. -/
def distinctVariants (info : EnumInfo) : List (Nat × VariantInfo) := distinctFrom 0 [] info.variants

mutual

/-- The type with the variables replaced by the types that are given for them. -/
def Ty.substitute (ids : List TyVar) (args : List Ty) : Ty → Ty
  | .var var => ((ids.zip args).lookup var).getD (.var var)
  | .function params result =>
    .function (substituteAll ids args params) (result.substitute ids args)
  | .list elem => .list (elem.substitute ids args)
  | .tuple elems => .tuple (substituteAll ids args elems)
  | .generic name given => .generic name (substituteAll ids args given)
  | .map key value => .map (key.substitute ids args) (value.substitute ids args)
  | .set elem => .set (elem.substitute ids args)
  | .channel elem => .channel (elem.substitute ids args)
  | .anonRecord names types => .anonRecord names (substituteAll ids args types)
  | .int => .int
  | .float => .float
  | .bool => .bool
  | .string => .string
  | .unit => .unit
  | .never => .never

def substituteAll (ids : List TyVar) (args : List Ty) : List Ty → List Ty
  | [] => []
  | ty :: tys => ty.substitute ids args :: substituteAll ids args tys

end

/-- A constructor of a pattern. -/
inductive CtorId where
  | tuple
  /-- The constructor of a record, with the names of the fields the pattern gives. -/
  | record (names : List Symbol)
  /-- A variant of the enum, by its position in the declaration. -/
  | variant (ty : TypeRef) (index : Nat)
  | bool (value : Bool)
  | nil
  | cons
  deriving DecidableEq, Repr

/-- A pattern as the search sees it. -/
inductive Pat where
  | wild
  | ctor (id : CtorId) (args : List Pat)
  | or (alts : List Pat)
  /-- A test for some values of a type whose values cannot be listed: which is not recorded. -/
  | lit
  | intRange (lo hi : Int64)

/-- A value, as far as patterns tell values apart. A record has the names of all its fields. -/
inductive Value where
  | int (n : Int64)
  | ctor (id : CtorId) (args : List Value)
  | other (n : Nat)

/-- A value that no row matches, as far as the search tells values apart. -/
inductive Witness where
  | any
  | ctor (id : CtorId) (args : List Witness)
  | int (n : Int64)

/-! ### Which values a pattern matches -/

/-- The parts of a value that a pattern with the constructor gives patterns for, if the value is
built with it. Of a record these are the fields that the pattern names. -/
def CtorId.parts : CtorId → Value → Option (List Value)
  | .record given, .ctor (.record names) values =>
    given.mapM fun name => (names.zip values).lookup name
  | id, .ctor built values => if id = built then some values else none
  | _, _ => none

mutual

/-- The pattern matches the value. A test whose values are not recorded counts as matching none. -/
def Pat.matches : Pat → Value → Bool
  | .wild, _ => true
  | .ctor id args, value =>
    match id.parts value with
    | some parts => matchesAll args parts
    | none => false
  | .or alts, value => matchesAny alts value
  | .lit, _ => false
  | .intRange lo hi, .int n => lo ≤ n && n ≤ hi
  | .intRange _ _, _ => false

/-- The row of patterns matches the row of values. -/
def matchesAll : List Pat → List Value → Bool
  | [], [] => true
  | pat :: pats, value :: values => pat.matches value && matchesAll pats values
  | _, _ => false

def matchesAny : List Pat → Value → Bool
  | [], _ => false
  | pat :: pats, value => pat.matches value || matchesAny pats value

end

mutual

/-- The value is one that the witness stands for. -/
def Witness.describes : Witness → Value → Bool
  | .any, _ => true
  | .ctor id args, value =>
    match id.parts value with
    | some parts => describesAll args parts
    | none => false
  | .int m, .int n => m = n
  | .int _, _ => false

def describesAll : List Witness → List Value → Bool
  | [], [] => true
  | witness :: witnesses, value :: values =>
    witness.describes value && describesAll witnesses values
  | _, _ => false

end

/-! ### Which values and patterns a type has -/

/-- What the values of a type are made of. -/
inductive Shape where
  | int
  | bool
  | list (elem : Ty)
  | tuple (elems : List Ty)
  | record (fields : List (Symbol × Ty))
  /-- The variants, each with its number and the types of its fields. -/
  | enum (name : TypeRef) (variants : List (Nat × List Ty))
  /-- Values that patterns do not list. -/
  | other
  | never

namespace Tables

variable (tables : Tables)

/-- What the values of a named type are made of. -/
def shapeOf (name : TypeRef) (args : List Ty) : Shape :=
  match tables.enums name, tables.records name with
  | some info, _ => .enum name ((distinctVariants info).map fun variant =>
      (variant.1, substituteAll info.paramVarIds args variant.2.fieldTypes))
  | none, some info => .record (info.fields.map fun field =>
      (field.1, field.2.substitute info.paramVarIds args))
  | none, none => .other

/-- What the values of the type are made of. -/
def shape : Ty → Shape
  | .int => .int
  | .bool => .bool
  | .unit => .tuple []
  | .list elem => .list elem
  | .tuple elems => .tuple elems
  | .generic name args => tables.shapeOf name args
  | .anonRecord names types => .record (names.zip types)
  | .never => .never
  | .float | .string | .var _ | .function _ _ | .map _ _ | .set _ | .channel _ => .other

/-- The types of the fields of the constructor, when it builds values of the type. -/
def fieldTypes (ty : Ty) (id : CtorId) : Option (List Ty) :=
  match tables.shape ty, id with
  | .tuple elems, .tuple => some elems
  | .record fields, .record names => names.mapM fun name => fields.lookup name
  | .enum name variants, .variant given index =>
    if given = name then variants.lookup index else none
  | .bool, .bool _ => some []
  | .list _, .nil => some []
  | .list elem, .cons => some [elem, ty]
  | _, _ => none

/-- A value of the type has the constructor: of a record, with all its fields. -/
def builds (ty : Ty) (id : CtorId) : Bool :=
  match tables.shape ty, id with
  | .record fields, .record names => names = fields.map Prod.fst
  | _, _ => true

end Tables

/-- The names of a record pattern are different names. -/
def CtorId.distinct : CtorId → Bool
  | .record names => names.Nodup
  | _ => true

mutual

/-- The value is of the type. -/
def Value.hasType (tables : Tables) : Value → Ty → Bool
  | .int _, ty =>
    match tables.shape ty with
    | .int => true
    | _ => false
  | .other _, ty =>
    match tables.shape ty with
    | .other => true
    | _ => false
  | .ctor id args, ty => tables.builds ty id &&
    match tables.fieldTypes ty id with
    | some tys => valuesHaveTypes tables args tys
    | none => false

def valuesHaveTypes (tables : Tables) : List Value → List Ty → Bool
  | [], [] => true
  | value :: values, ty :: tys => value.hasType tables ty && valuesHaveTypes tables values tys
  | _, _ => false

end

mutual

/-- The pattern is one for values of the type. -/
def Pat.hasType (tables : Tables) : Pat → Ty → Bool
  | .wild, _ => true
  | .lit, _ => true
  | .intRange _ _, ty =>
    match tables.shape ty with
    | .int => true
    | _ => false
  | .or alts, ty => altsHaveType tables alts ty
  | .ctor id args, ty => id.distinct &&
    match tables.fieldTypes ty id with
    | some tys => patsHaveTypes tables args tys
    | none => false

def patsHaveTypes (tables : Tables) : List Pat → List Ty → Bool
  | [], [] => true
  | pat :: pats, ty :: tys => pat.hasType tables ty && patsHaveTypes tables pats tys
  | _, _ => false

def altsHaveType (tables : Tables) : List Pat → Ty → Bool
  | [], _ => true
  | pat :: pats, ty => pat.hasType tables ty && altsHaveType tables pats ty

end

end Silt.Typechecker
