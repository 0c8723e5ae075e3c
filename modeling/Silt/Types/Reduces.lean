import Silt.Lib.Deepening
import Silt.Types.Canonical
import Silt.Types.Nodes

/-!
# Reduction to canonical form

A canonicalisation that comes to an end within some depth comes to the same end within any greater
one.  So a type reduces to another whatever the depth, and there is one rule for each way a node is
canonicalised: it is rebuilt from its parts, or it is an alias, a projection that stays, or a
projection an impl binds.  A canonical type is one that none of the last three is left in.

## Main definitions

* `Resolver.Reduces` : the canonicalisation of a type comes to an end.
* `Resolver.Canonical` : no alias and no projection an impl binds is left.

## Main results

* `Canonical.reduces` : a canonical type reduces to itself.
* `reduces_node`, `reduces_alias`, `reduces_proj`, `reduces_bound` : the rules.
-/

namespace Silt.Types

open Ty

namespace Resolver

variable {t u : Ty} {parts : List Ty}

variable {r : Resolver}

/-! ### The depth a canonicalisation takes -/

theorem substituteVars_below (m : TyVar → Option Ty) (fuel : Nat) (t : Ty) :
    Below (substituteVars m fuel t) (substituteVars m (fuel + 1) t) := by
  induction fuel generalizing t with
  | zero => exact Below.none _
  | succ fuel ih =>
    cases t with
    | var v => exact Below.refl _
    | node shape parts =>
      refine (Below.mapM ih parts).bind fun parts => ?_
      split
      · split
        · refine (Below.foldlM (fun merged (name, t) => ?_) _ _).bind fun _ => Below.refl _
          by_cases hn : name ∈ merged.map Prod.fst
          · simp only [if_pos hn]
            exact Below.refl _
          · simp only [if_neg hn]
            exact (ih t).bind fun _ => Below.refl _
        all_goals exact Below.refl _
      · exact Below.refl _

theorem boundAt_below (binding : AssocBinding) (receiver : Ty) (fuel : Nat) :
    Below (boundAt fuel binding receiver) (boundAt (fuel + 1) binding receiver) := by
  rw [boundAt, boundAt]
  split
  · exact substituteVars_below _ fuel _
  · exact Below.refl _

/-- A canonical form found at one depth is found at every greater one, and so is a head. -/
theorem canonicalize_below_succ (fuel : Nat) :
    (∀ t, Below (r.canonicalize fuel t) (r.canonicalize (fuel + 1) t)) ∧
    ∀ ref, Below (r.canonicalHead fuel ref) (r.canonicalHead (fuel + 1) ref) := by
  induction fuel with
  | zero => exact ⟨fun _ => Below.none _, fun _ => Below.none _⟩
  | succ fuel ih =>
    obtain ⟨ih, ihHead⟩ := ih
    refine ⟨fun t => ?_, fun ref => ?_⟩
    · cases t with
      | var v => exact Below.refl _
      | node shape parts =>
        refine (Below.mapM ih parts).bind fun parts => ?_
        split
        · split
          · exact (substituteVars_below _ fuel _).bind ih
          · exact Below.refl _
        · split
          · refine (ihHead _).bind fun head => ?_
            split
            · exact (boundAt_below _ _ fuel).bind ih
            · exact Below.refl _
          · exact Below.refl _
        · exact Below.refl _
    · rw [canonicalHead, canonicalHead]
      split
      · exact Below.refl _
      · split
        · exact Below.refl _
        · refine (ih _).bind fun target => ?_
          split
          · exact ihHead _
          · exact Below.refl _

theorem canonicalize_below (fuel : Nat) (t : Ty) :
    Below (r.canonicalize fuel t) (r.canonicalize (fuel + 1) t) :=
  (canonicalize_below_succ fuel).1 t

/-! ### What a type reduces to -/

/-- The canonicalisation of `t` comes to an end, with `u`. -/
def Reduces (r : Resolver) (t u : Ty) : Prop := ∃ fuel, r.canonicalize fuel t = some u

/-- What a dispatch table knows a named type by that is no alias. -/
def dispatch (ref : TypeRef) : TypeRef := if ref = .builtin "Fun" then .builtin "Fn" else ref

theorem canonicalHead_eq {ref : TypeRef} (h : r.lookupAlias ref = none) (fuel : Nat) :
    r.canonicalHead (fuel + 1) ref = some (dispatch ref) := by
  rw [canonicalHead, h, dispatch]
  split <;> rfl

theorem reduces_var (v : TyVar) : r.Reduces (.var v) (.var v) := ⟨1, rfl⟩

theorem canonicalize_of_le {fuel more : Nat} (h : r.canonicalize fuel t = some u)
    (hle : fuel ≤ more) : r.canonicalize more t = some u :=
  below_of_le (fun n t => canonicalize_below n t) hle t u h

/-- Once the parts are canonical, a node is rebuilt from them, unless it is an alias or a
projection. -/
theorem reduces_node (shape : Shape) {us : List Ty} (hp : List.Forall₂ r.Reduces parts us)
    (ha : ∀ name, shape = .generic name → r.lookupAlias name = none)
    (hpr : ∀ tr nm, shape = .assocProj tr nm → us.length ≠ 1) :
    r.Reduces (.node shape parts) (rebuilt shape us) := by
  obtain ⟨fuel, hf⟩ := exists_mapM (fun n t => canonicalize_below n t) hp
  refine ⟨fuel + 1, ?_⟩
  rw [canonicalize, hf]
  simp only [Option.bind_eq_bind, Option.bind_some]
  split
  · rw [ha _ rfl]
    rfl
  · exact absurd rfl (hpr _ _ rfl)
  · rfl

theorem reduces_alias {name : TypeRef} {info : AliasInfo} {args us : List Ty}
    (hnm : r.lookupAlias name = some info) (hr : info.target.NoRow)
    (ha : List.Forall₂ r.Reduces args us)
    (hu : r.Reduces (info.target.subst fun v => (info.paramVarIds.zip us).reverse.lookup v) u) :
    r.Reduces (.node (.generic name) args) u := by
  obtain ⟨n, hn⟩ := exists_mapM (fun n t => canonicalize_below n t) ha
  obtain ⟨m, hm⟩ := hu
  have ha' := Below.mapM (fun t => below_of_le (fun n t => canonicalize_below n t)
    (show n ≤ n + m + info.target.size by omega) t) args us hn
  refine ⟨n + m + info.target.size + 1, ?_⟩
  rw [canonicalize, ha']
  simp only [Option.bind_eq_bind, Option.bind_some, hnm, expandAlias]
  rw [substituteVars_eq_some _ hr (by omega)]
  exact canonicalize_of_le hm (by omega)

theorem reduces_proj {tr : TraitKey} {nm : Symbol} {receiver c : Ty} (hr : r.Reduces receiver c)
    (hf : ∀ head, headOfCanon c = some head → r.lookupAlias head = none ∧
      r.assocBindings.lookup (tr, dispatch head, nm) = none) :
    r.Reduces (.node (.assocProj tr nm) [receiver]) (.node (.assocProj tr nm) [c]) := by
  obtain ⟨n, hn⟩ := hr
  refine ⟨n + 1 + 1, ?_⟩
  rw [canonicalize, List.mapM_cons, canonicalize_of_le hn (Nat.le_succ n)]
  simp only [Option.bind_eq_bind, Option.bind_some, List.mapM_nil, Option.pure_def]
  cases hh : headOfCanon c with
  | none => rfl
  | some head =>
    obtain ⟨ha, hnn⟩ := hf head hh
    simp only [canonicalHead_eq ha, Option.bind_some, hnn]

theorem reduces_bound {tr : TraitKey} {nm : Symbol} {receiver c b : Ty}
    {head : TypeRef} {binding : AssocBinding} (hr : r.Reduces receiver c)
    (hh : headOfCanon c = some head) (ha : r.lookupAlias head = none)
    (hbn : r.assocBindings.lookup (tr, dispatch head, nm) = some binding)
    (hb : ∃ fuel, boundAt fuel binding c = some b) (hu : r.Reduces b u) :
    r.Reduces (.node (.assocProj tr nm) [receiver]) u := by
  obtain ⟨n, hn⟩ := hr
  obtain ⟨m, hm⟩ := hb
  obtain ⟨k, hk⟩ := hu
  have hbo := below_of_le (f := fun n (_ : Unit) => boundAt n binding c)
    (fun n _ => boundAt_below binding c n) (show m ≤ n + m + k + 1 by omega) () b hm
  refine ⟨n + m + k + 1 + 1, ?_⟩
  rw [canonicalize, List.mapM_cons, canonicalize_of_le hn (by omega)]
  simp only [Option.bind_eq_bind, Option.bind_some, List.mapM_nil, Option.pure_def, hh,
    canonicalHead_eq ha, hbn]
  rw [hbo]
  exact canonicalize_of_le hk (by omega)

/-! ### Canonical types -/

/-- No alias, no constructor of an alias, no application of a constructor and no projection an impl
binds is at the node. -/
def CanonicalAt (r : Resolver) (shape : Shape) (parts : List Ty) : Prop :=
  (∀ name, shape = .generic name → r.lookupAlias name = none) ∧
  (∀ ref, shape = .con (.named ref) → r.lookupAlias ref = none) ∧
  (∀ head rest arg, shape = .app → parts ≠ [.node (.con head) rest, arg]) ∧
  ∀ traitName assocName receiver head, shape = .assocProj traitName assocName →
    parts = [receiver] → headOfCanon receiver = some head →
    r.assocBindings.lookup (traitName, dispatch head, assocName) = none

/-- A type with nothing left to reduce. -/
def Canonical (r : Resolver) : Ty → Prop := Everywhere r.CanonicalAt

theorem canonical_node {shape : Shape} :
    r.Canonical (.node shape parts) ↔
      r.CanonicalAt shape parts ∧ ∀ part ∈ parts, r.Canonical part :=
  everywhere_node

theorem lookupAlias_head {head : TypeRef} (h : r.Canonical t) (hh : headOfCanon t = some head) :
    r.lookupAlias head = none := by
  cases t with
  | var v => simp [headOfCanon] at hh
  | node shape parts =>
    obtain ⟨hg, hc, -⟩ := (canonical_node.mp h).1
    have hb : ∀ name, r.lookupAlias (.builtin name) = none := fun _ => rfl
    cases shape with
    | generic name =>
      obtain rfl : name = head := by simpa [headOfCanon] using hh
      exact hg _ rfl
    | con c =>
      cases c with
      | named ref =>
        obtain rfl : ref = head := by simpa [headOfCanon] using hh
        exact hc _ rfl
      | _ =>
        obtain rfl := Option.some.inj hh
        exact hb _
    | app | rigid _ | error | never | assocProj _ _ | anonRecord _ _ =>
      simp [headOfCanon] at hh
    | _ =>
      obtain rfl := Option.some.inj hh
      exact hb _

theorem Canonical.reduces (h : r.Canonical t) : r.Reduces t t := by
  induction t using ind with
  | var v => exact reduces_var v
  | node shape parts ih =>
    obtain ⟨⟨hg, hc, hap, hpj⟩, hpr⟩ := canonical_node.mp h
    have ha := List.forall₂_same.mpr fun part hpa => ih part hpa (hpr part hpa)
    by_cases hp : ∃ tr nm receiver, shape = .assocProj tr nm ∧ parts = [receiver]
    · obtain ⟨tr, nm, receiver, rfl, rfl⟩ := hp
      have hr : r.Canonical receiver := hpr receiver (by simp)
      exact reduces_proj (ih receiver (by simp) hr) fun head hh =>
        ⟨lookupAlias_head hr hh, hpj _ _ _ _ rfl rfl hh⟩
    · have ho : ∀ tr nm, shape = .assocProj tr nm → parts.length ≠ 1 := fun tr nm hs hl => by
        obtain ⟨receiver, rfl⟩ := List.length_eq_one_iff.mp hl
        exact hp ⟨tr, nm, receiver, hs, rfl⟩
      have hn := reduces_node shape ha hg ho
      rwa [rebuilt_self hap] at hn

theorem canonical_rebuilt (shape : Shape) (hp : ∀ part ∈ parts, r.Canonical part)
    (ha : ∀ name, shape = .generic name → r.lookupAlias name = none)
    (hc : ∀ ref, shape = .con (.named ref) → r.lookupAlias ref = none)
    (hpj : ∀ tr nm receiver head, shape = .assocProj tr nm → parts = [receiver] →
      headOfCanon receiver = some head → r.assocBindings.lookup (tr, dispatch head, nm) = none) :
    r.Canonical (rebuilt shape parts) := by
  by_cases hap : ∀ head rest arg, shape = .app → parts ≠ [.node (.con head) rest, arg]
  · rw [rebuilt_self hap]
    exact canonical_node.mpr ⟨⟨ha, hc, hap, hpj⟩, hp⟩
  · -- A type constructor applied is the full type, whose head is no alias.
    push Not at hap
    obtain ⟨head, rest, arg, rfl, rfl⟩ := hap
    have har : r.Canonical arg := hp arg (by simp)
    obtain ⟨⟨-, hc, -⟩, hr⟩ := canonical_node.mp (hp (.node (.con head) rest) (by simp))
    have he : r.Canonical (.node .error []) :=
      canonical_node.mpr ⟨⟨nofun, nofun, nofun, nofun⟩, by simp⟩
    change r.Canonical (head.apply rest arg)
    cases head with
    | named ref =>
      refine canonical_node.mpr ⟨⟨?_, nofun, nofun, nofun⟩, ?_⟩
      · rintro name ⟨⟩
        exact hc _ rfl
      · simpa using ⟨har, hr⟩
    | list | set | channel =>
      exact canonical_node.mpr ⟨⟨nofun, nofun, nofun, nofun⟩, by simpa using har⟩
    | map =>
      refine canonical_node.mpr ⟨⟨nofun, nofun, nofun, nofun⟩, ?_⟩
      grind

/-- A canonical type constructor applied reduces to the full type at the canonical argument. -/
theorem reduces_apply {head : Head} {rest : List Ty} {arg : Ty}
    (hc : r.Canonical (.node (.con head) rest)) (ha : r.Reduces arg u) :
    r.Reduces (head.apply rest arg) (head.apply rest u) := by
  obtain ⟨⟨-, hn, -⟩, hr⟩ := canonical_node.mp hc
  have hal := List.forall₂_same.mpr fun part hp => (hr part hp).reduces
  cases head with
  | named ref =>
    refine reduces_node (.generic ref) (.cons ha hal) ?_ nofun
    rintro name ⟨⟩
    exact hn _ rfl
  | list => exact reduces_node .list (.cons ha .nil) nofun nofun
  | set => exact reduces_node .set (.cons ha .nil) nofun nofun
  | channel => exact reduces_node .channel (.cons ha .nil) nofun nofun
  | map =>
    have he : r.Reduces (.node .error []) (.node .error []) := reduces_node .error .nil nofun nofun
    have hl : r.Reduces (rest.getLastD (.node .error [])) (rest.getLastD (.node .error [])) := by
      rcases List.eq_nil_or_concat rest with rfl | ⟨front, last, rfl⟩
      · exact he
      · simpa using (hr last (by simp)).reduces
    exact reduces_node .map (.cons ha (.cons hl .nil)) nofun nofun

end Resolver

end Silt.Types
