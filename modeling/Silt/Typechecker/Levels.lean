import Mathlib.Data.Finset.Card
import Silt.Types.Ty

/-!
# The levels of type variables

A type variable has the level of the scope it was made in.  Binding it to a type lowers the
variables of the type to its level, so that the variables which are still above the level of a
scope when the scope is left are those that nothing outside it mentions: they are generalised.

Only unresolved variables are lowered.  A resolved one keeps the level it had, which may be above
what the variables of its type were lowered to since.

## Main definitions

* `TyVarSupply` : the substitution, the levels, and the current level.
* `TyVarSupply.fresh`, `bind`, `lower` : what is done with variables.
* `Action`, `Run` : what a run does.
* `Reaches` : one variable is reached from another through the substitution.

## Main results

* `lowered_lower` : what `lower` does.
* `Sound.perform` : what holds of the variables at every step.
* `levels_sound` : nothing that is generalised is reached from outside.
-/

namespace Silt.Levels

open List

open Silt.Types Relation

variable {w : TyVar}

/-! ### The variables of a type -/

/-- The variable that a shape itself has: the tail of a row. -/
def rowVar : Shape → Option TyVar
  | .anonRecord _ (.var v) => some v
  | _ => none

/-- The variables with one more at the end, each once. -/
def push (out : List TyVar) (v : TyVar) : List TyVar := if v ∈ out then out else out ++ [v]

mutual

def walk : Ty → List TyVar → List TyVar
  | .var v, out => push out v
  | .node shape parts, out =>
    match rowVar shape with
    | some v => push (walkAll parts out) v
    | none => walkAll parts out

def walkAll : List Ty → List TyVar → List TyVar
  | [], out => out
  | t :: ts, out => walkAll ts (walk t out)

end

/-- The free variables of a type: each once, in the order they first appear. -/
def freeVarsIn (t : Ty) : List TyVar := walk t []

theorem mem_push {out : List TyVar} {v : TyVar} : w ∈ push out v ↔ w ∈ out ∨ w = v := by
  unfold push
  grind

mutual

theorem mem_walk {w : TyVar} : ∀ (t : Ty) (out : List TyVar),
    w ∈ walk t out ↔ w ∈ out ∨ w ∈ walk t []
  | .var v, out => by
    rw [walk, walk, mem_push, mem_push]
    simp
  | .node shape parts, out => by
    rw [walk, walk]
    cases rowVar shape with
    | none => exact mem_walkAll parts out
    | some v =>
      simp only [mem_push, mem_walkAll parts out]
      tauto

theorem mem_walkAll {w : TyVar} : ∀ (ts : List Ty) (out : List TyVar),
    w ∈ walkAll ts out ↔ w ∈ out ∨ w ∈ walkAll ts []
  | [], out => by simp [walkAll]
  | t :: ts, out => by
    rw [walkAll, walkAll, mem_walkAll ts (walk t out), mem_walkAll ts (walk t []), mem_walk t out]
    tauto

end

theorem mem_walkAll_nil (ts : List Ty) : w ∈ walkAll ts [] ↔ ∃ t ∈ ts, w ∈ freeVarsIn t := by
  induction ts with
  | nil => simp [walkAll]
  | cons t ts ih =>
    rw [walkAll, mem_walkAll, ih, exists_mem_cons_iff]
    rfl

@[simp]
theorem mem_freeVarsIn_var {v : TyVar} : w ∈ freeVarsIn (.var v) ↔ w = v := by
  rw [freeVarsIn, walk, mem_push]
  simp

theorem mem_freeVarsIn_node {shape : Shape} {parts : List Ty} :
    w ∈ freeVarsIn (.node shape parts) ↔ rowVar shape = some w ∨ ∃ t ∈ parts, w ∈ freeVarsIn t := by
  rw [freeVarsIn, walk, ← mem_walkAll_nil]
  cases rowVar shape with
  | none => simp
  | some v =>
    simp only [mem_push, Option.some.injEq]
    rw [or_comm, eq_comm]

theorem mem_parts_of_headApply {head : Head} {rest : List Ty} {arg : Ty}
    (h : w ∈ freeVarsIn (head.apply rest arg)) :
    w ∈ freeVarsIn arg ∨ ∃ t ∈ rest, w ∈ freeVarsIn t := by
  cases head with
  | map =>
    rcases mem_freeVarsIn_node.mp h with h | ⟨t, ht, hw⟩
    · cases h
    · rcases mem_cons.mp ht with rfl | ht
      · exact .inl hw
      · obtain rfl := mem_singleton.mp ht
        cases hr : rest.getLast? with
        | none =>
          rw [getLastD_eq_getLast?, hr] at hw
          exact absurd hw (by simp [mem_freeVarsIn_node, rowVar])
        | some u => grind
  | named ref =>
    rcases mem_freeVarsIn_node.mp h with h | ⟨t, ht, hw⟩
    · cases h
    grind
  | list | set | channel =>
    rcases mem_freeVarsIn_node.mp h with h | ⟨t, ht, hw⟩
    · cases h
    · rw [mem_singleton.mp ht] at hw
      exact .inl hw

/-- A type that is built again has no variables but those of its parts. -/
theorem mem_of_mem_rebuilt {shape : Shape} {parts : List Ty}
    (h : w ∈ freeVarsIn (Ty.rebuilt shape parts)) :
    rowVar shape = some w ∨ ∃ t ∈ parts, w ∈ freeVarsIn t := by
  unfold Ty.rebuilt at h
  split at h
  · rename_i head arg
    right
    unfold Ty.applied at h
    split at h
    · rename_i hd rest
      rcases mem_parts_of_headApply h with h | h
      · exact ⟨arg, by simp, h⟩
      · exact ⟨_, mem_cons_self, mem_freeVarsIn_node.mpr (.inr h)⟩
    · rcases mem_freeVarsIn_node.mp h with h | h
      · cases h
      · exact h
  · exact mem_freeVarsIn_node.mp h

mutual

/-- Whether `Never` is in the type. -/
def holdsNever : Ty → Bool
  | .var _ => false
  | .node .never _ => true
  | .node _ parts => holdsNeverAny parts

def holdsNeverAny : List Ty → Bool
  | [] => false
  | t :: ts => holdsNever t || holdsNeverAny ts

end

/-! ### The supply of variables -/

/-- A session's type variables: what they are resolved to, their levels, the level that new ones
are made at, the next one, the first one of the module being checked, and the earlier ones that the
check of the module bound. -/
structure TyVarSupply where
  subst : TyVar → Option Ty
  levels : TyVar → Nat
  level : Nat
  next : TyVar
  base : TyVar
  trail : List TyVar

namespace TyVarSupply

/-- A supply of no variables. -/
def empty : TyVarSupply := ⟨fun _ => none, fun _ => 0, 0, 0, 0, []⟩

/-- A new variable, at the current level. -/
def fresh (s : TyVarSupply) : TyVar × TyVarSupply :=
  (s.next,
    { s with
      next := s.next + 1
      subst := Function.update s.subst s.next none
      levels := Function.update s.levels s.next s.level })

mutual

/-- The type with a new variable for each `Never` in it. -/
def withoutNever (s : TyVarSupply) : Ty → Ty × TyVarSupply
  | .var v => (.var v, s)
  | .node shape parts =>
    if !holdsNever (.node shape parts) then (.node shape parts, s)
    else if shape = .never then (.var s.fresh.1, s.fresh.2)
    else (Ty.rebuilt shape (withoutNeverAll s parts).1, (withoutNeverAll s parts).2)

def withoutNeverAll (s : TyVarSupply) : List Ty → List Ty × TyVarSupply
  | [] => ([], s)
  | t :: ts =>
    ((withoutNever s t).1 :: (withoutNeverAll (withoutNever s t).2 ts).1,
      (withoutNeverAll (withoutNever s t).2 ts).2)

end

/-- The level of an unresolved variable lowered. -/
def lowerVar (s : TyVarSupply) (v : TyVar) (level : Nat) : TyVarSupply :=
  { s with levels := Function.update s.levels v (min (s.levels v) level) }

/-- The unresolved variables of a type lowered, those of resolved ones through at most `fuel`
resolutions.  A resolved variable is taken out while what it stands for is walked. -/
def lowerFor : Nat → TyVarSupply → Ty → Nat → TyVarSupply
  | 0, s, _, _ => s
  | fuel + 1, s, t, level =>
    (freeVarsIn t).foldl (fun s v =>
      match s.subst v with
      | some resolved =>
        let s' := lowerFor fuel { s with subst := Function.update s.subst v none } resolved level
        { s' with subst := Function.update s'.subst v (some resolved) }
      | none => s.lowerVar v level) s

/-- The unresolved variables of the type lowered to the level, those above it. -/
def lower (s : TyVarSupply) (t : Ty) (level : Nat) : TyVarSupply := lowerFor (s.next + 1) s t level

/-- The variable resolved to the type. -/
def bind (s : TyVarSupply) (v : TyVar) (t : Ty) : TyVarSupply :=
  let s := if v < s.base then { s with trail := s.trail ++ [v] } else s
  let t' := (s.withoutNever t).1
  let s := (s.withoutNever t).2
  let s := s.lower t' (s.levels v)
  { s with subst := Function.update s.subst v (some t') }

/-- Whether an unresolved variable is above the current level. -/
def isGeneralizable (s : TyVarSupply) (v : TyVar) : Bool := s.levels v > s.level

/-- A generalisation scope entered. -/
def enterLevel (s : TyVarSupply) : TyVarSupply := { s with level := s.level + 1 }

/-- The scope left. -/
def exitLevel (s : TyVarSupply) : TyVarSupply := { s with level := s.level - 1 }

/-- The variables of the type kept out of later generalisations at this level. -/
def keepMonomorphic (s : TyVarSupply) (t : Ty) : TyVarSupply := s.lower t s.level

/-- What a variable is resolved to has the other in it. -/
def Edge (s : TyVarSupply) (v w : TyVar) : Prop := ∃ t, s.subst v = some t ∧ w ∈ freeVarsIn t

/-- The variable reaches the other through the substitution. -/
def Reaches (s : TyVarSupply) : TyVar → TyVar → Prop := ReflTransGen s.Edge

/-- The variables of a type are ones that were made. -/
def Has (s : TyVarSupply) (t : Ty) : Prop := ∀ v ∈ freeVarsIn t, v < s.next

instance (s : TyVarSupply) (t : Ty) : Decidable (s.Has t) :=
  inferInstanceAs (Decidable (∀ v ∈ freeVarsIn t, v < s.next))

end TyVarSupply

/-- What is done with a supply. -/
inductive Action
  | fresh
  | bind (v : TyVar) (t : Ty)
  | lower (t : Ty) (level : Nat)
  | keepMonomorphic (t : Ty)
  | enterLevel
  | exitLevel

namespace TyVarSupply

def perform (s : TyVarSupply) : Action → TyVarSupply
  | .fresh => s.fresh.2
  | .bind v t => s.bind v t
  | .lower t level => s.lower t level
  | .keepMonomorphic t => s.keepMonomorphic t
  | .enterLevel => s.enterLevel
  | .exitLevel => s.exitLevel

/-- The supply after the actions. -/
def run (s : TyVarSupply) (as : List Action) : TyVarSupply := as.foldl perform s

/-- The action is one that can be: its variables were made, the type that a variable is bound to
does not lead back to it, and a scope that is left was entered. -/
def Can (s : TyVarSupply) : Action → Prop
  | .fresh | .enterLevel => True
  | .bind v t => v < s.next ∧ s.Has t ∧ ∀ w ∈ freeVarsIn t, ¬ s.Reaches w v
  | .lower t _ | .keepMonomorphic t => s.Has t
  | .exitLevel => 0 < s.level

/-- The variable that the action binds is not resolved yet. -/
def BindsUnresolved (s : TyVarSupply) : Action → Prop
  | .bind v _ => s.subst v = none
  | _ => True

/-- Every action meets the condition in the state it is done in. -/
def Each (p : TyVarSupply → Action → Prop) : TyVarSupply → List Action → Prop
  | _, [] => True
  | s, a :: as => p s a ∧ Each p (s.perform a) as

end TyVarSupply

/-- A run of a session: what is done, one action after the other, each variable bound once. -/
structure Run where
  actions : List Action
  can : TyVarSupply.empty.Each TyVarSupply.Can actions
  bindsUnresolved : TyVarSupply.empty.Each TyVarSupply.BindsUnresolved actions

/-- The state that a run comes to. -/
def Run.final (r : Run) : TyVarSupply := TyVarSupply.empty.run r.actions

/-- The action makes the variable while the level is at most `level`, or lowers it to such a
level. -/
def Outside (level : Nat) (s : TyVarSupply) (a : Action) (v : TyVar) : Prop :=
  (s.next ≤ v ∧ v < (s.perform a).next ∧ s.level ≤ level) ∨
    (v < s.next ∧ (s.perform a).levels v < s.levels v ∧ (s.perform a).levels v ≤ level)

/-! ### Reaching -/

namespace TyVarSupply

variable {s s' : TyVarSupply} {v w : TyVar} {t : Ty} {vs : List TyVar} {level : Nat}

/-- No variable leads back to itself. -/
def Acyclic (s : TyVarSupply) : Prop := ∀ v, ¬ TransGen s.Edge v v

theorem eq_of_reaches (hv : s.subst v = none) (h : s.Reaches v w) : w = v := by
  rcases h.cases_head with rfl | ⟨x, ⟨t, ht, -⟩, -⟩
  · rfl
  · rw [hv] at ht
    cases ht

/-- The supply with a resolved variable taken out. -/
def without (s : TyVarSupply) (v : TyVar) : TyVarSupply :=
  { s with subst := Function.update s.subst v none }

@[simp]
theorem subst_without_self (s : TyVarSupply) (v : TyVar) : (s.without v).subst v = none := by
  simp [without]

theorem subst_without_of_ne (h : w ≠ v) : (s.without v).subst w = s.subst w := by
  simp [without, h]

theorem subst_of_without (h : (s.without v).subst w = some t) : w ≠ v ∧ s.subst w = some t := by
  have hne : w ≠ v := by
    rintro rfl
    rw [subst_without_self] at h
    cases h
  exact ⟨hne, subst_without_of_ne hne ▸ h⟩

theorem edge_of_without {a b : TyVar} (h : (s.without v).Edge a b) : s.Edge a b := by
  obtain ⟨t, ht, hb⟩ := h
  exact ⟨t, (subst_of_without ht).2, hb⟩

theorem Acyclic.without (h : s.Acyclic) (v : TyVar) : (s.without v).Acyclic := by
  intro w hw
  exact h w (TransGen.mono (fun _ _ => edge_of_without) w w hw)

/-- What is reached by a way that does not pass the variable is reached without it. -/
theorem reaches_without {a b : TyVar} (hp : ¬ s.Reaches a v) (h : s.Reaches a b) :
    (s.without v).Reaches a b := by
  induction h with
  | refl => exact .refl
  | @tail b c hab hbc ih =>
    have hne : b ≠ v := by
      rintro rfl
      exact hp hab
    obtain ⟨t, ht, hc⟩ := hbc
    exact ih.tail ⟨t, by rw [subst_without_of_ne hne, ht], hc⟩

/-! ### What lowering does -/

/-- The unresolved variables that the given ones reach are lowered to the level, and nothing else
is done. -/
structure Lowered (s s' : TyVarSupply) (vs : List TyVar) (level : Nat) : Prop where
  subst : s'.subst = s.subst
  sameLevel : s'.level = s.level
  next : s'.next = s.next
  base : s'.base = s.base
  le : ∀ w, s'.levels w ≤ s.levels w
  untouched : ∀ w, (∀ v ∈ vs, ¬ s.Reaches v w) → s'.levels w = s.levels w
  resolved : ∀ w, s.subst w ≠ none → s'.levels w = s.levels w
  reached : ∀ v ∈ vs, ∀ w, s.Reaches v w → s.subst w = none → s'.levels w ≤ level

theorem Lowered.reaches (h : Lowered s s' vs level) : s'.Reaches = s.Reaches := by
  have he : s'.Edge = s.Edge := by
    funext a b
    rw [Edge, Edge, h.subst]
  rw [Reaches, Reaches, he]

theorem Lowered.acyclic (h : Lowered s s' vs level) (hs : s.Acyclic) : s'.Acyclic := by
  intro v hv
  refine hs v (TransGen.mono ?_ v v hv)
  rintro a b ⟨t, ht, hb⟩
  exact ⟨t, by rw [← h.subst, ht], hb⟩

theorem lowered_nil (s : TyVarSupply) (level : Nat) : Lowered s s [] level :=
  ⟨rfl, rfl, rfl, rfl, fun _ => Nat.le_refl _, fun _ _ => rfl, fun _ _ => rfl, by simp⟩

theorem Lowered.cons {s₁ s₂ : TyVarSupply} (h₁ : Lowered s s₁ [v] level)
    (h₂ : Lowered s₁ s₂ vs level) : Lowered s s₂ (v :: vs) level where
  subst := h₂.subst.trans h₁.subst
  sameLevel := h₂.sameLevel.trans h₁.sameLevel
  next := h₂.next.trans h₁.next
  base := h₂.base.trans h₁.base
  le w := (h₂.le w).trans (h₁.le w)
  untouched := by
    intro w hw
    rw [h₂.untouched w, h₁.untouched w]
    · grind
    · intro u hu
      rw [h₁.reaches]
      exact hw u (mem_cons_of_mem _ hu)
  resolved := by
    intro w hw
    rw [h₂.resolved w (h₁.subst ▸ hw), h₁.resolved w hw]
  reached := by
    intro u hu w huw hw
    rcases mem_cons.mp hu with rfl | hu
    · exact (h₂.le w).trans (h₁.reached u mem_cons_self w huw hw)
    · exact h₂.reached u hu w (h₁.reaches ▸ huw) (h₁.subst ▸ hw)

theorem lowered_lowerVar (hv : s.subst v = none) (level : Nat) :
    Lowered s (s.lowerVar v level) [v] level where
  subst := rfl
  sameLevel := rfl
  next := rfl
  base := rfl
  le w := by
    by_cases hw : w = v
    · subst hw
      simp [lowerVar]
    · simp [lowerVar, hw]
  untouched := by
    intro w hw
    have hne : w ≠ v := by
      rintro rfl
      exact hw w mem_cons_self .refl
    simp [lowerVar, hne]
  resolved := by
    intro w hw
    have hne : w ≠ v := by
      rintro rfl
      exact hw hv
    simp [lowerVar, hne]
  reached := by
    intro u hu w huw hw
    obtain rfl := mem_singleton.mp hu
    obtain rfl := eq_of_reaches hv huw
    simp [lowerVar]

/-- Lowering what a variable is resolved to, the variable taken out meanwhile. -/
theorem lowered_resolved (ha : s.Acyclic) (hv : s.subst v = some t)
    (h : Lowered (s.without v) s' (freeVarsIn t) level) :
    Lowered s { s' with subst := Function.update s'.subst v (some t) } [v] level := by
  -- The variable is not met below itself.
  have hb : ∀ u ∈ freeVarsIn t, ¬ s.Reaches u v := by
    intro u hu huv
    exact ha v (TransGen.head' ⟨t, hv, hu⟩ huv)
  have hm {a b : TyVar} (hab : (s.without v).Reaches a b) : s.Reaches a b :=
    ReflTransGen.mono (fun _ _ => edge_of_without) a b hab
  have hs : s'.levels v = s.levels v := h.untouched v fun u hu huv => hb u hu (hm huv)
  refine ⟨?_, h.sameLevel, h.next, h.base, h.le, ?_, ?_, ?_⟩
  · funext w
    by_cases hw : w = v
    · subst hw
      simp [hv]
    · simp [hw, h.subst, without]
  · intro w hw
    refine h.untouched w fun u hu huw => hw v mem_cons_self ?_
    exact ReflTransGen.head ⟨t, hv, hu⟩ (hm huw)
  · intro w hw
    by_cases hwv : w = v
    · rw [hwv]
      exact hs
    · exact h.resolved w (by rwa [subst_without_of_ne hwv])
  · intro u hu w huw hw
    obtain rfl := mem_singleton.mp hu
    rcases huw.cases_head with rfl | ⟨x, ⟨t', ht', hx⟩, hxw⟩
    · rw [hv] at hw
      cases hw
    · obtain rfl := Option.some.inj (hv.symm.trans ht')
      have hne : w ≠ u := by
        rintro rfl
        exact hb x hx hxw
      exact h.reached x hx w (reaches_without (hb x hx) hxw) (by rwa [subst_without_of_ne hne])

/-- The resolved variables. -/
def resolvedVars (s : TyVarSupply) : Finset TyVar :=
  (Finset.range s.next).filter fun v => (s.subst v).isSome

theorem mem_resolvedVars : v ∈ s.resolvedVars ↔ v < s.next ∧ (s.subst v).isSome := by
  rw [resolvedVars, Finset.mem_filter, Finset.mem_range]

theorem card_resolvedVars_without (hv : s.subst v = some t) (hlt : v < s.next) :
    (s.without v).resolvedVars.card + 1 = s.resolvedVars.card := by
  have hm : v ∈ s.resolvedVars := mem_resolvedVars.mpr ⟨hlt, by rw [hv]; rfl⟩
  have he : (s.without v).resolvedVars = s.resolvedVars.erase v := by
    ext w
    rw [Finset.mem_erase, mem_resolvedVars, mem_resolvedVars]
    by_cases hw : w = v
    · subst hw
      simp
    · rw [subst_without_of_ne hw]
      simp [hw, without]
  rw [he]
  exact Finset.card_erase_add_one hm

/-- With fuel for each resolved variable, lowering goes to every variable that is reached. -/
theorem lowered_lowerFor (fuel : Nat) (t : Ty) (level : Nat) (ha : s.Acyclic)
    (hm : ∀ v t, s.subst v = some t → v < s.next) (hf : s.resolvedVars.card < fuel) :
    Lowered s (lowerFor fuel s t level) (freeVarsIn t) level := by
  induction fuel generalizing s t with
  | zero => exact absurd hf (Nat.not_lt_zero _)
  | succ fuel ih =>
    rw [lowerFor]
    -- The variables of the type one after the other; lowering changes no resolution.
    generalize freeVarsIn t = vs
    induction vs generalizing s with
    | nil => exact lowered_nil s level
    | cons v vs ihvs =>
      have hs : Lowered s (match s.subst v with
          | some resolved =>
            let s' := lowerFor fuel { s with subst := Function.update s.subst v none }
              resolved level
            { s' with subst := Function.update s'.subst v (some resolved) }
          | none => s.lowerVar v level) [v] level := by
        cases hv : s.subst v with
        | none => exact lowered_lowerVar hv level
        | some resolved =>
          have hc := card_resolvedVars_without hv (hm v _ hv)
          refine lowered_resolved ha hv (ih (s := s.without v) resolved (ha.without v)
            ?_ (by omega))
          intro w u hw
          exact hm w u (subst_of_without hw).2
      refine hs.cons (ihvs (hs.acyclic ha) ?_ ?_)
      · intro w u hw
        rw [hs.subst] at hw
        rw [hs.next]
        exact hm w u hw
      · rw [resolvedVars, hs.subst, hs.next]
        exact hf

theorem lowered_lower (t : Ty) (level : Nat) (ha : s.Acyclic)
    (hm : ∀ v t, s.subst v = some t → v < s.next) :
    Lowered s (s.lower t level) (freeVarsIn t) level := by
  apply lowered_lowerFor _ t level ha hm
  have hc := Finset.card_filter_le (Finset.range s.next) fun v => (s.subst v).isSome
  rw [Finset.card_range] at hc
  exact Nat.lt_succ_of_le hc

/-! ### What making variables does -/

/-- Variables are made at the current level, and nothing else is done. -/
structure Made (s s' : TyVarSupply) : Prop where
  subst : s'.subst = s.subst
  sameLevel : s'.level = s.level
  le_next : s.next ≤ s'.next
  old : ∀ v, v < s.next → s'.levels v = s.levels v
  new : ∀ v, s.next ≤ v → v < s'.next → s'.levels v = s.level

theorem Made.refl (s : TyVarSupply) : Made s s :=
  ⟨rfl, rfl, Nat.le_refl _, fun _ _ => rfl, fun _ h h' => absurd h' (Nat.not_lt.mpr h)⟩

theorem Made.trans {s'' : TyVarSupply} (h : Made s s') (h' : Made s' s'') : Made s s'' where
  subst := h'.subst.trans h.subst
  sameLevel := h'.sameLevel.trans h.sameLevel
  le_next := h.le_next.trans h'.le_next
  old v hv := (h'.old v (hv.trans_le h.le_next)).trans (h.old v hv)
  new := by
    intro v hv hv'
    by_cases hlt : v < s'.next
    · rw [h'.old v hlt, h.new v hv hlt]
    · rw [h'.new v (Nat.not_lt.mp hlt) hv', h.sameLevel]

theorem made_fresh (h : s.subst s.next = none) : Made s s.fresh.2 where
  subst := by
    funext v
    by_cases hv : v = s.next
    · subst hv
      simp [fresh, h]
    · simp [fresh, hv]
  sameLevel := rfl
  le_next := Nat.le_succ _
  old := by
    intro v hv
    simp [fresh, Nat.ne_of_lt hv]
  new := by
    intro v hv hv'
    obtain rfl : v = s.next := Nat.le_antisymm (Nat.lt_succ_iff.mp hv') hv
    simp [fresh]

theorem unresolved_of_made (h : Made s s') (hs : ∀ v, s.next ≤ v → s.subst v = none) (v : TyVar)
    (hv : s'.next ≤ v) : s'.subst v = none := by
  rw [h.subst]
  exact hs v (h.le_next.trans hv)

mutual

/-- The variables of the type without `Never` are those it had, and new ones. -/
theorem withoutNever_spec : ∀ (s : TyVarSupply) (t : Ty), (∀ v, s.next ≤ v → s.subst v = none) →
    Made s (s.withoutNever t).2 ∧
      ∀ w ∈ freeVarsIn (s.withoutNever t).1,
        w ∈ freeVarsIn t ∨ s.next ≤ w ∧ w < (s.withoutNever t).2.next
  | s, .var v, _ => by
    rw [withoutNever]
    exact ⟨.refl s, fun w hw => .inl hw⟩
  | s, .node shape parts, hs => by
    rw [withoutNever]
    split
    · exact ⟨.refl s, fun w hw => .inl hw⟩
    · split
      · refine ⟨made_fresh (hs _ (Nat.le_refl _)), ?_⟩
        intro w hw
        rw [mem_freeVarsIn_var] at hw
        subst hw
        exact .inr ⟨Nat.le_refl _, Nat.lt_succ_self _⟩
      · obtain ⟨hm, hv⟩ := withoutNeverAll_spec s parts hs
        refine ⟨hm, ?_⟩
        intro w hw
        rcases mem_of_mem_rebuilt hw with hr | ⟨t, ht, hwt⟩
        · exact .inl (mem_freeVarsIn_node.mpr (.inl hr))
        · rcases hv t ht w hwt with ⟨u, hu, hwu⟩ | hn
          · exact .inl (mem_freeVarsIn_node.mpr (.inr ⟨u, hu, hwu⟩))
          · exact .inr hn

theorem withoutNeverAll_spec : ∀ (s : TyVarSupply) (ts : List Ty),
    (∀ v, s.next ≤ v → s.subst v = none) → Made s (s.withoutNeverAll ts).2 ∧
      ∀ t ∈ (s.withoutNeverAll ts).1, ∀ w ∈ freeVarsIn t,
        (∃ u ∈ ts, w ∈ freeVarsIn u) ∨ s.next ≤ w ∧ w < (s.withoutNeverAll ts).2.next
  | s, [], _ => by
    rw [withoutNeverAll]
    exact ⟨.refl s, by simp⟩
  | s, t :: ts, hs => by
    rw [withoutNeverAll]
    obtain ⟨hm, hv⟩ := withoutNever_spec s t hs
    obtain ⟨hm', hv'⟩ := withoutNeverAll_spec (s.withoutNever t).2 ts (unresolved_of_made hm hs)
    refine ⟨hm.trans hm', ?_⟩
    intro u hu w hw
    rcases mem_cons.mp hu with rfl | hu
    · rcases hv w hw with h | ⟨h, h'⟩
      · exact .inl ⟨t, mem_cons_self, h⟩
      · exact .inr ⟨h, h'.trans_le hm'.le_next⟩
    · rcases hv' u hu w hw with ⟨x, hx, hwx⟩ | ⟨h, h'⟩
      · exact .inl ⟨x, mem_cons_of_mem _ hx, hwx⟩
      · exact .inr ⟨hm.le_next.trans h, h'⟩

end

/-! ### What holds at every step -/

/-- What is resolved was made and is made of what was made, nothing leads back to itself, and what
a variable reaches has no higher level. -/
structure Sound (s : TyVarSupply) : Prop where
  unmade : ∀ v, s.next ≤ v → s.subst v = none
  made : ∀ v t, s.subst v = some t → ∀ w ∈ freeVarsIn t, w < s.next
  acyclic : s.Acyclic
  bounded : ∀ v w, s.Reaches v w → s.subst w = none → s.levels w ≤ s.levels v

namespace Sound

variable {s : TyVarSupply}

theorem lt_next (h : Sound s) (v : TyVar) (t : Ty) (hv : s.subst v = some t) : v < s.next := by
  by_contra hlt
  rw [h.unmade v (Nat.not_lt.mp hlt)] at hv
  cases hv

theorem empty : Sound TyVarSupply.empty where
  unmade _ _ := rfl
  made _ _ h := by cases h
  acyclic := by
    intro v hv
    obtain ⟨w, ⟨t, ht, -⟩, -⟩ := TransGen.head'_iff.mp hv
    cases ht
  bounded := by
    intro v w hvw _
    rw [eq_of_reaches rfl hvw]

theorem of_made {s' : TyVarSupply} (h : Sound s) (hs : Made s s') : Sound s' := by
  have he : s'.Edge = s.Edge := by
    funext a b
    rw [Edge, Edge, hs.subst]
  refine ⟨unresolved_of_made hs h.unmade, ?_, ?_, ?_⟩
  · intro v t hv w hw
    exact (h.made v t (hs.subst ▸ hv) w hw).trans_le hs.le_next
  · rw [Acyclic, he]
    exact h.acyclic
  · intro v w hvw hw
    rw [Reaches, he] at hvw
    rw [hs.subst] at hw
    rcases hvw.cases_tail with rfl | ⟨x, hvx, ⟨t, ht, hwt⟩⟩
    · exact Nat.le_refl _
    · have hv : v < s.next := by
        by_contra hlt
        obtain rfl := eq_of_reaches (h.unmade v (Nat.not_lt.mp hlt)) hvx
        exact hlt (h.lt_next x t ht)
      rw [hs.old v hv, hs.old w (h.made x t ht w hwt)]
      exact h.bounded v w hvw hw

theorem of_lowered {s' : TyVarSupply} {vs : List TyVar} {level : Nat} (h : Sound s)
    (hs : Lowered s s' vs level) : Sound s' := by
  refine ⟨?_, ?_, hs.acyclic h.acyclic, ?_⟩
  · intro v hv
    rw [hs.subst]
    exact h.unmade v (hs.next ▸ hv)
  · intro v t hv w hw
    rw [hs.next]
    exact h.made v t (hs.subst ▸ hv) w hw
  · intro v w hvw hw
    rw [hs.reaches] at hvw
    rw [hs.subst] at hw
    -- A resolved variable keeps its level; an unresolved one reaches only itself.
    by_cases hv : s.subst v = none
    · rw [eq_of_reaches hv hvw]
    · rw [hs.resolved v hv]
      exact (hs.le w).trans (h.bounded v w hvw hw)

section Bind

variable {s : TyVarSupply} {v : TyVar} {t : Ty}

/-- The supply with the variable resolved. -/
def bound (s : TyVarSupply) (v : TyVar) (t : Ty) : TyVarSupply :=
  { s with subst := Function.update s.subst v (some t) }

theorem edge_bound {a b : TyVar} (h : (bound s v t).Edge a b) :
    a = v ∧ b ∈ freeVarsIn t ∨ a ≠ v ∧ s.Edge a b := by
  obtain ⟨u, hu, hb⟩ := h
  by_cases ha : a = v
  · subst ha
    have hut : t = u := by simpa [bound] using hu
    exact .inl ⟨rfl, hut ▸ hb⟩
  · exact .inr ⟨ha, u, by simpa [bound, ha] using hu, hb⟩

/-- A way through the variable goes on in what it is bound to, and does not come back. -/
theorem reaches_bound (hc : ∀ b ∈ freeVarsIn t, ¬ s.Reaches b v) {a w : TyVar}
    (h : (bound s v t).Reaches a w) :
    s.Reaches a w ∨ s.Reaches a v ∧ ∃ b ∈ freeVarsIn t, s.Reaches b w := by
  induction h with
  | refl => exact .inl .refl
  | @tail x w _ hxw ih =>
    rcases edge_bound hxw with ⟨rfl, hw⟩ | ⟨-, hxw⟩
    · rcases ih with hax | ⟨-, b, hb, hbx⟩
      · exact .inr ⟨hax, w, hw, .refl⟩
      · exact absurd hbx (hc b hb)
    · rcases ih with hax | ⟨hav, b, hb, hbx⟩
      · exact .inl (hax.tail hxw)
      · exact .inr ⟨hav, b, hb, hbx.tail hxw⟩

theorem acyclic_bound (h : Sound s) (hc : ∀ b ∈ freeVarsIn t, ¬ s.Reaches b v) :
    (bound s v t).Acyclic := by
  intro a ha
  obtain ⟨x, hax, hxa⟩ := TransGen.tail'_iff.mp ha
  rcases edge_bound hxa with ⟨rfl, hat⟩ | ⟨-, hxa⟩
  · rcases reaches_bound hc hax with hax | ⟨-, b, hb, hbx⟩
    · exact hc a hat hax
    · exact hc b hb hbx
  · rcases reaches_bound hc hax with hax | ⟨hav, b, hb, hbx⟩
    · exact h.acyclic a (TransGen.tail' hax hxa)
    · exact hc b hb (hbx.trans (.head hxa hav))

/-- A variable that is bound to what has no higher level. -/
theorem of_bound (h : Sound s) (hv : v < s.next) (hun : s.subst v = none)
    (ht : s.Has t) (hc : ∀ b ∈ freeVarsIn t, ¬ s.Reaches b v)
    (hl : ∀ b ∈ freeVarsIn t, ∀ w, s.Reaches b w → s.subst w = none → s.levels w ≤ s.levels v) :
    Sound (bound s v t) := by
  have hs {w : TyVar} (hw : w ≠ v) : (bound s v t).subst w = s.subst w := by
    simp [bound, hw]
  have hsl : (bound s v t).subst v = some t := by simp [bound]
  refine ⟨?_, ?_, acyclic_bound h hc, ?_⟩
  · intro w hw
    rw [hs (Nat.ne_of_gt (hv.trans_le hw))]
    exact h.unmade w hw
  · intro w u hu x hx
    by_cases hw : w = v
    · rw [hw, hsl] at hu
      obtain rfl := Option.some.inj hu
      exact ht x hx
    · rw [hs hw] at hu
      exact h.made w u hu x hx
  · intro a w haw hw
    have hne : w ≠ v := by
      rintro rfl
      rw [hsl] at hw
      cases hw
    rw [hs hne] at hw
    show s.levels w ≤ s.levels a
    rcases reaches_bound hc haw with haw | ⟨hav, b, hb, hbw⟩
    · exact h.bounded a w haw hw
    · exact (hl b hb w hbw hw).trans (h.bounded a v hav hun)

end Bind

end Sound

/-- What an action does to the levels: those of variables that were made go down or stay, and new
variables are made at the current level or below. -/
structure Descends (s s' : TyVarSupply) : Prop where
  le_next : s.next ≤ s'.next
  old : ∀ v, v < s.next → s'.levels v ≤ s.levels v
  new : ∀ v, s.next ≤ v → v < s'.next → s'.levels v ≤ s.level

theorem Made.descends (h : Made s s') : Descends s s' :=
  ⟨h.le_next, fun v hv => Nat.le_of_eq (h.old v hv), fun v hv hv' => Nat.le_of_eq (h.new v hv hv')⟩

theorem Lowered.descends (h : Lowered s s' vs level) : Descends s s' :=
  ⟨Nat.le_of_eq h.next.symm, fun v _ => h.le v,
    fun _ hv hv' => absurd (h.next ▸ hv') (Nat.not_lt.mpr hv)⟩

theorem sound_bind (h : Sound s) (hv : v < s.next) (hu : s.subst v = none) (ht : s.Has t)
    (hc : ∀ w ∈ freeVarsIn t, ¬ s.Reaches w v) : Sound (s.bind v t) ∧ Descends s (s.bind v t) := by
  -- The trail plays no part.
  obtain ⟨s₀, hs₀, htr⟩ : ∃ s₀ : TyVarSupply, Made s s₀ ∧
      s₀ = if v < s.base then { s with trail := s.trail ++ [v] } else s := by
    refine ⟨_, ?_, rfl⟩
    split
    · exact ⟨rfl, rfl, Nat.le_refl _, fun _ _ => rfl, fun _ h h' => absurd h' (Nat.not_lt.mpr h)⟩
    · exact .refl s
  have h₀ := h.of_made hs₀
  obtain ⟨hm, hvr⟩ := withoutNever_spec s₀ t h₀.unmade
  have hm' := hs₀.trans hm
  have h₁ := h.of_made hm'
  set t' := (s₀.withoutNever t).1
  set s₁ := (s₀.withoutNever t).2
  have hr : s₁.Reaches = s.Reaches := by
    have he : s₁.Edge = s.Edge := by
      funext a b
      rw [Edge, Edge, hm'.subst]
    rw [Reaches, Reaches, he]
  have hc₁ : ∀ w ∈ freeVarsIn t', ¬ s₁.Reaches w v := by
    intro w hw hwv
    rw [hr] at hwv
    rcases hvr w hw with hw | ⟨hge, -⟩
    · exact hc w hw hwv
    · have hge : s.next ≤ w := hs₀.le_next.trans hge
      have heq : v = w := eq_of_reaches (h.unmade w hge) hwv
      exact absurd hv (Nat.not_lt.mpr (heq ▸ hge))
  have ht₁ : s₁.Has t' := by
    intro w hw
    rcases hvr w hw with hw | ⟨-, hlt⟩
    · exact (ht w hw).trans_le hm'.le_next
    · exact hlt
  have hl := lowered_lower t' (s₁.levels v) h₁.acyclic h₁.lt_next
  have h₂ := h₁.of_lowered hl
  have hs : (s₁.lower t' (s₁.levels v)).levels v = s₁.levels v := hl.untouched v hc₁
  have hbn : s.bind v t = Sound.bound (s₁.lower t' (s₁.levels v)) v t' := by
    rw [bind, ← htr]
    rfl
  rw [hbn]
  constructor
  · refine h₂.of_bound ?_ ?_ ?_ ?_ ?_
    · rw [hl.next]
      exact hv.trans_le hm'.le_next
    · rw [hl.subst, hm'.subst, hu]
    · intro w hw
      rw [hl.next]
      exact ht₁ w hw
    · rw [hl.reaches]
      exact hc₁
    · intro b hb w hbw hw
      rw [hl.reaches] at hbw
      rw [hl.subst] at hw
      rw [hs]
      exact hl.reached b hb w hbw hw
  · refine ⟨?_, ?_, ?_⟩
    · show s.next ≤ (s₁.lower t' (s₁.levels v)).next
      rw [hl.next]
      exact hm'.le_next
    · intro w hw
      exact (hl.le w).trans (hm'.descends.old w hw)
    · intro w hw hw'
      refine (hl.le w).trans (hm'.descends.new w hw ?_)
      rw [← hl.next]
      exact hw'

/-- An action that can be, a bind one of an unresolved variable, keeps a supply sound. -/
theorem Sound.perform (h : Sound s) {a : Action} (hcn : s.Can a) (hb : s.BindsUnresolved a) :
    Sound (s.perform a) ∧ Descends s (s.perform a) := by
  cases a with
  | fresh =>
    have hm := made_fresh (h.unmade _ (Nat.le_refl _))
    exact ⟨h.of_made hm, hm.descends⟩
  | bind v t =>
    obtain ⟨hv, ht, hc⟩ := hcn
    exact sound_bind h hv hb ht hc
  | lower t level =>
    have hl := lowered_lower t level h.acyclic h.lt_next
    exact ⟨h.of_lowered hl, hl.descends⟩
  | keepMonomorphic t =>
    have hl := lowered_lower t s.level h.acyclic h.lt_next
    exact ⟨h.of_lowered hl, hl.descends⟩
  | enterLevel | exitLevel =>
    exact ⟨⟨h.unmade, h.made, h.acyclic, h.bounded⟩, Nat.le_refl _, fun _ _ => Nat.le_refl _,
      fun _ hge hlt => absurd hlt (Nat.not_lt.mpr hge)⟩

/-- What a run keeps, and that no level of a variable that was made rises. -/
theorem Sound.run (h : Sound s) {as : List Action} (hc : s.Each Can as)
    (hb : s.Each BindsUnresolved as) :
    Sound (s.run as) ∧ ∀ v, v < s.next → (s.run as).levels v ≤ s.levels v := by
  induction as generalizing s with
  | nil => exact ⟨h, fun _ _ => Nat.le_refl _⟩
  | cons a as ih =>
    obtain ⟨hs, hd⟩ := h.perform hc.1 hb.1
    obtain ⟨hf, hl⟩ := ih hs hc.2 hb.2
    refine ⟨hf, ?_⟩
    intro v hv
    exact (hl v (hv.trans_le hd.le_next)).trans (hd.old v hv)

theorem Each.append {p : TyVarSupply → Action → Prop} {as bs : List Action}
    (h : s.Each p (as ++ bs)) : s.Each p as ∧ (s.run as).Each p bs := by
  induction as generalizing s with
  | nil => exact ⟨trivial, h⟩
  | cons a as ih =>
    obtain ⟨has, hbs⟩ := ih h.2
    exact ⟨⟨h.1, has⟩, hbs⟩

/-- A variable that an action makes or lowers outside has a level outside from then on. -/
theorem levels_le_of_outside {pre post : List Action} {a : Action}
    (hc : TyVarSupply.empty.Each Can (pre ++ a :: post))
    (hb : TyVarSupply.empty.Each BindsUnresolved (pre ++ a :: post))
    (h : Outside level (TyVarSupply.empty.run pre) a v) :
    (TyVarSupply.empty.run (pre ++ a :: post)).levels v ≤ level := by
  obtain ⟨hc₀, hc₁⟩ := Each.append hc
  obtain ⟨hb₀, hb₁⟩ := Each.append hb
  obtain ⟨hs, -⟩ := Sound.empty.run hc₀ hb₀
  obtain ⟨hs', hd⟩ := hs.perform hc₁.1 hb₁.1
  obtain ⟨-, hl⟩ := hs'.run hc₁.2 hb₁.2
  have hr : TyVarSupply.empty.run (pre ++ a :: post) =
      ((TyVarSupply.empty.run pre).perform a).run post := by
    rw [TyVarSupply.run, foldl_append]
    rfl
  rw [hr]
  rcases h with ⟨hge, hlt, hle⟩ | ⟨hlt, -, hle⟩
  · exact (hl v hlt).trans ((hd.new v hge hlt).trans hle)
  · exact (hl v (hlt.trans_le hd.le_next)).trans hle

end TyVarSupply

/-- Every unresolved variable that a variable reaches has no higher level; and what can be
generalised is not reached from a variable that was made or lowered at a level outside. -/
theorem levels_sound (r : Run) :
    (∀ v w, r.final.Reaches v w → r.final.subst w = none → r.final.levels w ≤ r.final.levels v) ∧
    ∀ pre a post, r.actions = pre ++ a :: post → ∀ v w,
      Outside r.final.level (TyVarSupply.empty.run pre) a v → r.final.Reaches v w →
      r.final.subst w = none → r.final.isGeneralizable w = false := by
  have hb := (TyVarSupply.Sound.empty.run r.can r.bindsUnresolved).1.bounded
  refine ⟨hb, ?_⟩
  intro pre a post hs v w ho hvw hw
  have hv : r.final.levels v ≤ r.final.level := by
    have := TyVarSupply.levels_le_of_outside (hs ▸ r.can) (hs ▸ r.bindsUnresolved) ho
    rwa [← hs] at this
  rw [TyVarSupply.isGeneralizable, decide_eq_false_iff_not, Nat.not_lt]
  exact (hb v w hvw hw).trans hv

/-- An outer variable is bound to one of an inner scope. -/
def boundInside : Run where
  actions := [.fresh, .enterLevel, .fresh, .bind 0 (.var 1), .exitLevel]
  can := by
    refine ⟨trivial, trivial, trivial, ⟨by decide, by decide, fun w hw hr => ?_⟩, Nat.zero_lt_one,
      trivial⟩
    obtain rfl : w = 1 := by simpa using hw
    exact absurd (TyVarSupply.eq_of_reaches rfl hr) (by decide)
  bindsUnresolved := ⟨trivial, trivial, trivial, rfl, trivial, trivial⟩

/-- The inner variable cannot be generalised behind its scope. -/
theorem levels_sound_boundInside : boundInside.final.isGeneralizable 1 = false :=
  (levels_sound boundInside).2 [] .fresh _ rfl 0 1 (.inl (by decide))
    (.single ⟨.var 1, rfl, by decide⟩) rfl

/-- A variable of an inner scope, resolved before an outer variable is bound to it, is bound again:
its level was not lowered with the outer variable. -/
def boundAgain : List Action :=
  [.fresh, .enterLevel, .fresh, .bind 1 (.node .int []), .bind 0 (.node .list [.var 1]), .fresh,
    .bind 1 (.node .list [.var 2]), .exitLevel]

/-- A variable left over from a scope is bound to one of the next scope, of the same depth. -/
def leftOver : List Action :=
  [.enterLevel, .fresh, .exitLevel, .enterLevel, .fresh, .bind 0 (.var 1), .exitLevel]

theorem can_boundAgain : TyVarSupply.empty.Each TyVarSupply.Can boundAgain := by
  refine ⟨trivial, trivial, trivial, ⟨by decide, by decide, ?_⟩, ⟨by decide, by decide, ?_⟩,
    trivial, ⟨by decide, by decide, ?_⟩, Nat.zero_lt_one, trivial⟩
  · intro w hw
    exact absurd hw not_mem_nil
  · intro w hw hr
    obtain rfl : w = 1 := by simpa [mem_freeVarsIn_node, rowVar] using hw
    rcases hr.cases_head with h | ⟨x, ⟨t, ht, hx⟩, -⟩
    · exact absurd h (by decide)
    · obtain rfl : Ty.node .int [] = t := Option.some.inj ht
      exact absurd hx not_mem_nil
  · intro w hw hr
    obtain rfl : w = 2 := by simpa [mem_freeVarsIn_node, rowVar] using hw
    exact absurd (TyVarSupply.eq_of_reaches rfl hr) (by decide)

theorem can_leftOver : TyVarSupply.empty.Each TyVarSupply.Can leftOver := by
  refine ⟨trivial, trivial, Nat.zero_lt_one, trivial, trivial, ⟨by decide, by decide, ?_⟩,
    Nat.zero_lt_one, trivial⟩
  intro w hw hr
  obtain rfl : w = 1 := by simpa using hw
  exact absurd (TyVarSupply.eq_of_reaches rfl hr) (by decide)

/-- A variable that is bound again reaches one of a higher level; and of two scopes one after the
other, what the second can generalise is reached from a variable of the first. -/
theorem levels_exceeded :
    (TyVarSupply.empty.Each TyVarSupply.Can boundAgain ∧
      (TyVarSupply.empty.run boundAgain).Reaches 0 2 ∧
      (TyVarSupply.empty.run boundAgain).subst 2 = none ∧
      (TyVarSupply.empty.run boundAgain).levels 0 < (TyVarSupply.empty.run boundAgain).levels 2) ∧
    TyVarSupply.empty.Each TyVarSupply.Can leftOver ∧
      TyVarSupply.empty.Each TyVarSupply.BindsUnresolved leftOver ∧
      0 < (TyVarSupply.empty.run (leftOver.take 3)).next ∧
      (TyVarSupply.empty.run leftOver).Reaches 0 1 ∧
      (TyVarSupply.empty.run leftOver).subst 1 = none ∧
      (TyVarSupply.empty.run leftOver).isGeneralizable 1 = true := by
  refine ⟨⟨can_boundAgain, ?_, rfl, by decide⟩, can_leftOver, ?_, by decide, ?_, rfl, by decide⟩
  · have h₀ : (TyVarSupply.empty.run boundAgain).Edge 0 1 := ⟨.node .list [.var 1], rfl, by decide⟩
    have h₁ : (TyVarSupply.empty.run boundAgain).Edge 1 2 := ⟨.node .list [.var 2], rfl, by decide⟩
    exact (ReflTransGen.single h₀).tail h₁
  · exact ⟨trivial, trivial, trivial, trivial, trivial, rfl, trivial, trivial⟩
  · exact .single ⟨.var 1, rfl, by decide⟩

end Silt.Levels
