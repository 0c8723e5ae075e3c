import Silt.Types.Ty

/-!
# Canonical types

An alias stands for another type, and a projection `<T as Trait>::Item` for the type that the impl
of the trait for the head of `T` binds.  A canonical type has neither, but for projections no impl
binds.  Aliases and bindings are registered one at a time; a binding that is found to lead back to
itself is refused.

A function of the source that need not come to an end has here a bound on its depth, and is `none`
past it.

## Main definitions

* `Resolver` : the aliases and the bindings registered.
* `Resolver.canonicalize` : the canonical form of a type.
* `Resolver.registerAlias`, `Resolver.registerAssocBinding` : registration.
-/

namespace Silt.Types

open Ty

/-- An alias: its parameters as variables, and what it stands for. -/
structure AliasInfo where
  paramVarIds : List TyVar
  target : Ty

/-- What an impl binds an associated type to, and the self type of the impl. -/
structure AssocBinding where
  ty : Ty
  of : Ty

/-- The key of a binding: the trait, the canonical head of the impl's target, the associated type's
name. -/
abbrev AssocKey := TraitKey × TypeRef × Symbol

/-- Why a binding is refused: which binding, and where the cycle closes. -/
structure AssocBindingCycle where
  key : AssocKey
  via : AssocKey

/-- The aliases, by the id of the type, and the bindings. -/
structure Resolver where
  aliases : List (Nat × AliasInfo)
  assocBindings : List (AssocKey × AssocBinding)

namespace Resolver

/-- No alias and no binding. -/
def new : Resolver := ⟨[], []⟩

/-- The alias a named type is. -/
def lookupAlias (r : Resolver) : TypeRef → Option AliasInfo
  | .builtin _ => none
  | .user id => r.aliases.lookup id

/-- Register an alias, in place of what it was. -/
def registerAlias (r : Resolver) (id : Nat) (info : AliasInfo) : Resolver :=
  { r with aliases := (id, info) :: r.aliases.filter fun entry => entry.1 ≠ id }

/-- The target of an alias with the arguments for its parameters. -/
def expandAlias (fuel : Nat) (info : AliasInfo) (args : List Ty) : Option Ty :=
  -- A parameter that is there twice stands for the last of its arguments.
  substituteVars (fun v => (info.paramVarIds.zip args).reverse.lookup v) fuel info.target

/-- The bound type at a receiver: with what the impl's variables stand for there. -/
def boundAt (fuel : Nat) (binding : AssocBinding) (receiver : Ty) : Option Ty :=
  match instanceOf binding.of receiver [] with
  | some stands => substituteVars (fun v => stands.lookup v) fuel binding.ty
  | none => some binding.ty

mutual

/-- The canonical form of a type. -/
def canonicalize (r : Resolver) : Nat → Ty → Option Ty
  | 0, _ => none
  | _ + 1, .var v => some (.var v)
  | fuel + 1, .node shape parts => do
    let parts ← parts.mapM (canonicalize r fuel)
    match shape, parts with
    | .generic name, args =>
      match r.lookupAlias name with
      | some info => do
        let expanded ← expandAlias fuel info args
        canonicalize r fuel expanded
      | none => some (.node (.generic name) args)
    | .assocProj traitName assocName, [receiver] =>
      match headOfCanon receiver with
      | some head => do
        let head ← canonicalHead r fuel head
        match r.assocBindings.lookup (traitName, head, assocName) with
        | some binding => do
          let bound ← boundAt fuel binding receiver
          canonicalize r fuel bound
        | none => some (.node (.assocProj traitName assocName) [receiver])
      | none => some (.node (.assocProj traitName assocName) [receiver])
    | shape, parts => some (rebuilt shape parts)

/-- The type a dispatch table knows a named type by. -/
def canonicalHead (r : Resolver) : Nat → TypeRef → Option TypeRef
  | 0, _ => none
  | fuel + 1, ty =>
    if ty = .builtin "Fun" then some (.builtin "Fn")
    else
      match r.lookupAlias ty with
      | none => some ty
      | some info => do
        let target ← canonicalize r fuel info.target
        match headOfCanon target with
        | some head => canonicalHead r fuel head
        | none => some ty

end

mutual

/-- The key at which the projections of a canonical type lead back to a key of `visited`, and the
keys visited. -/
def findAssocCycle (r : Resolver) :
    Nat → Ty → List AssocKey → Option (Option AssocKey × List AssocKey)
  | 0, _, _ => none
  | _ + 1, .var _, visited => some (none, visited)
  | fuel + 1, .node (.assocProj traitName assocName) [receiver], visited =>
    match headOfCanon receiver with
    | none => findAssocCycle r fuel receiver visited
    | some head => do
      let head ← canonicalHead r fuel head
      let key := (traitName, head, assocName)
      if key ∈ visited then some (some key, visited)
      else
        match r.assocBindings.lookup key with
        | none => findAssocCycle r fuel receiver visited
        | some binding => do
          let (found, visited) ← findAssocCycle r fuel binding.ty (key :: visited)
          match found with
          | some key => some (some key, visited)
          | none => findAssocCycle r fuel receiver visited
  | fuel + 1, .node _ parts, visited => findCycleInParts r fuel parts visited

def findCycleInParts (r : Resolver) :
    Nat → List Ty → List AssocKey → Option (Option AssocKey × List AssocKey)
  | 0, _, _ => none
  | _ + 1, [], visited => some (none, visited)
  | fuel + 1, t :: ts, visited => do
    let (found, visited) ← findAssocCycle r fuel t visited
    match found with
    | some key => some (some key, visited)
    | none => findCycleInParts r fuel ts visited

end

/-- Register a binding, unless its projections lead back to it. -/
def registerAssocBinding (fuel : Nat) (r : Resolver) (traitName : TraitKey) (targetHead : TypeRef)
    (assocName : Symbol) (ty of : Ty) : Option (Except AssocBindingCycle Resolver) := do
  let head ← r.canonicalHead fuel targetHead
  let ty ← r.canonicalize fuel ty
  let key := (traitName, head, assocName)
  let (found, _) ← r.findAssocCycle fuel ty [key]
  match found with
  | some via => some (.error ⟨key, via⟩)
  | none => do
    let of ← r.canonicalize fuel of
    some (.ok { r with
      assocBindings := (key, ⟨ty, of⟩) :: r.assocBindings.filter fun entry => entry.1 ≠ key })

end Resolver

end Silt.Types
