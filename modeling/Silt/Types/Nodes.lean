import Mathlib.Data.Nat.Basic
import Silt.Lib.Deepening
import Silt.Lib.Elementwise
import Silt.Types.Ty

/-!
# The nodes of a type

What holds of every shape a type is written with and its parts, and induction over a type and its
parts.  A type in which no record has a row variable is substituted part by part, and substitution
comes to an end.

## Main definitions

* `Ty.Everywhere` : what holds of every node.
* `Ty.subst` : substitution part by part.

## Main results

* `Ty.substituteVars_eq_some` : it is the substitution of the source where there is no row variable.
-/

namespace Silt.Types

namespace Ty

variable {shape : Shape} {parts : List Ty} {t : Ty}

/-! ### Every node of a type -/

mutual

/-- What holds of every shape of a type and its parts. -/
def Everywhere (p : Shape → List Ty → Prop) : Ty → Prop
  | .var _ => True
  | .node shape parts => p shape parts ∧ EverywhereIn p parts

def EverywhereIn (p : Shape → List Ty → Prop) : List Ty → Prop
  | [] => True
  | t :: ts => t.Everywhere p ∧ EverywhereIn p ts

end

variable {p q : Shape → List Ty → Prop}

theorem everywhereIn_iff {ts : List Ty} : EverywhereIn p ts ↔ ∀ t ∈ ts, t.Everywhere p := by
  induction ts with
  | nil => simp [EverywhereIn]
  | cons t ts ih => simp [EverywhereIn, ih]

theorem everywhere_node :
    (node shape parts).Everywhere p ↔ p shape parts ∧ ∀ t ∈ parts, t.Everywhere p := by
  rw [Everywhere, everywhereIn_iff]

theorem size_le_sizes {ts : List Ty} (h : t ∈ ts) : t.size ≤ sizes ts := by
  induction ts with
  | nil => cases h
  | cons u ts ih =>
    rcases List.mem_cons.mp h with rfl | h
    · exact Nat.le_add_right _ _
    · exact Nat.le_trans (ih h) (Nat.le_add_left _ _)

theorem size_lt_of_mem (h : t ∈ parts) : t.size < (node shape parts).size := by
  exact Nat.lt_succ_of_le (size_le_sizes h)

@[elab_as_elim]
theorem ind {motive : Ty → Prop} (t : Ty) (var : ∀ v, motive (.var v))
    (node : ∀ shape parts, (∀ part ∈ parts, motive part) → motive (.node shape parts)) :
    motive t := by
  induction h : t.size using Nat.strong_induction_on generalizing t with
  | _ n ih =>
    cases t with
    | var v => exact var v
    | node shape parts =>
      exact node shape parts fun part hp => ih _ (h ▸ size_lt_of_mem hp) part rfl

theorem Everywhere.imp (h : t.Everywhere p) (hpq : ∀ shape parts, p shape parts → q shape parts) :
    t.Everywhere q := by
  induction t using ind with
  | var v => trivial
  | node shape parts ih =>
    rw [everywhere_node] at h ⊢
    exact ⟨hpq _ _ h.1, fun part hp => ih part hp (h.2 part hp)⟩

/-! ### Substitution part by part -/

mutual

/-- The type with types for variables, part by part. -/
def subst (m : TyVar → Option Ty) : Ty → Ty
  | .var v => (m v).getD (.var v)
  | .node shape parts => rebuilt shape (substAll m parts)

def substAll (m : TyVar → Option Ty) : List Ty → List Ty
  | [] => []
  | t :: ts => t.subst m :: substAll m ts

end

theorem substAll_eq (m : TyVar → Option Ty) (ts : List Ty) : substAll m ts = ts.map (subst m) := by
  induction ts with
  | nil => rfl
  | cons t ts ih => rw [substAll, ih, List.map_cons]

@[simp]
theorem subst_var (m : TyVar → Option Ty) (v : TyVar) : (var v).subst m = (m v).getD (.var v) := rfl

theorem subst_node (m : TyVar → Option Ty) (shape : Shape) (parts : List Ty) :
    (node shape parts).subst m = rebuilt shape (parts.map (subst m)) := by
  rw [subst, substAll_eq]

theorem rebuilt_eq_node (h : shape ≠ .app) (parts : List Ty) :
    rebuilt shape parts = .node shape parts := by
  cases shape <;> first | rfl | exact absurd rfl h

/-- A node is rebuilt as it is, unless it is a type constructor applied. -/
theorem rebuilt_self (h : ∀ head rest arg, shape = .app → parts ≠ [.node (.con head) rest, arg]) :
    rebuilt shape parts = .node shape parts := by
  by_cases hs : shape = .app
  · subst hs
    match parts with
    | [] | [_] | _ :: _ :: _ :: _ | [.var _, _] => rfl
    | [.node shape rest, arg] =>
      cases shape with
      | con head => exact absurd rfl (h head rest arg rfl)
      | _ => rfl
  · exact rebuilt_eq_node hs parts

/-- A type constructor is rebuilt from nothing else. -/
theorem eq_con_of_rebuilt {rest : List Ty} {head : Head}
    (h : rebuilt shape parts = .node (.con head) rest) : shape = .con head := by
  by_cases hs : shape = .app
  · subst hs
    by_cases ha : ∀ hd rs arg, Shape.app = .app → parts ≠ [.node (.con hd) rs, arg]
    · rw [rebuilt_self ha] at h
      cases h
    · push Not at ha
      obtain ⟨hd, rs, arg, -, rfl⟩ := ha
      change hd.apply rs arg = _ at h
      cases hd <;> cases h
  · rw [rebuilt_eq_node hs] at h
    cases h
    rfl

/-- No record has a row variable. -/
def NoRow : Ty → Prop := Everywhere fun shape _ => ∀ names v, shape ≠ .anonRecord names (.var v)

theorem mapM_eq_some_map {α β : Type} {f : α → Option β} {g : α → β} {xs : List α}
    (h : ∀ x ∈ xs, f x = some (g x)) : xs.mapM f = some (xs.map g) := by
  induction xs with
  | nil => rfl
  | cons x xs ih => grind

/-- The step of a substitution at a node without a row variable. -/
theorem substituteVars_node (m : TyVar → Option Ty) (fuel : Nat) (parts : List Ty)
    (h : ∀ names v, shape ≠ .anonRecord names (.var v)) :
    substituteVars m (fuel + 1) (node shape parts) =
      (parts.mapM (substituteVars m fuel)).bind fun parts => some (rebuilt shape parts) := by
  refine bind_congr fun parts => ?_
  split
  · exact absurd rfl (h _ _)
  · rfl

/-- Where there is no row variable, substitution comes to an end. -/
theorem substituteVars_eq_some (m : TyVar → Option Ty) {fuel : Nat} (ht : t.NoRow)
    (h : t.size ≤ fuel) : substituteVars m fuel t = some (t.subst m) := by
  induction fuel generalizing t with
  | zero => cases t <;> simp [size] at h
  | succ fuel ih =>
    cases t with
    | var v => rfl
    | node shape parts =>
      rw [NoRow, everywhere_node] at ht
      rw [substituteVars_node m fuel parts ht.1, mapM_eq_some_map fun part hp =>
        ih (ht.2 part hp) (Nat.le_of_lt_succ (Nat.lt_of_lt_of_le (size_lt_of_mem hp) h)),
        subst_node]
      rfl

end Ty

end Silt.Types
