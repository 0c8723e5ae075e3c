import Silt.Types.Cycles

/-!
# Canonicalisation comes to an end

A projection is replaced by what an impl binds, with parts of the receiver for the impl's variables.
So a projection of a variable becomes one of a smaller type.  A projection of another type becomes
one of any size, but the search for cycles keeps its key from leading back to itself; it ends where
no projection of a variable is met on the way.  Aliases for types without projections only unfold.
Then every type has a canonical form, and the canonical form is its own.

## Main definitions

* `Template`, `Plain` : the types that bindings and aliases stand for here.
* `Resolver.Tame` : what the registries hold.

## Main results

* `canonicalize_ends` : every type has a canonical form in a resolver that is reached and `Tame`.
* `canonicalize_runs_on` : two registrations that are accepted, after which one has none.
-/

namespace Silt.Types

open List Option

open Ty

/-! ### What bindings and aliases stand for -/

/-- At the node is no row variable, no type constructor, and a projection only of a variable, for
which `ok` holds, or of a type with a head, for which `headed` holds. -/
def TemplateAt (ok : TyVar → TraitKey → Symbol → Prop)
    (headed : TypeRef → TraitKey → Symbol → Prop) (shape : Shape) (parts : List Ty) : Prop :=
  (∀ names v, shape ≠ .anonRecord names (.var v)) ∧ (∀ head, shape ≠ .con head) ∧
  ∀ traitName assocName, shape = .assocProj traitName assocName →
    (∃ v, parts = [.var v] ∧ ok v traitName assocName) ∨
      ∃ receiver head, parts = [receiver] ∧ headOfCanon receiver = some head ∧
        headed head traitName assocName

/-- A type without row variables and type constructors, whose projections are of variables, and of
types with heads that are `fine`. -/
def Template (fine : TypeRef → Prop) : Ty → Prop :=
  Everywhere (TemplateAt (fun _ _ _ => True) fun head _ _ => fine head)

/-- A type without row variables and type constructors, whose projections are not of variables. -/
def Closed : Ty → Prop := Everywhere (TemplateAt (fun _ _ _ => False) fun _ _ _ => True)

/-- A type without row variables, type constructors and projections. -/
def Plain : Ty → Prop := Everywhere (TemplateAt (fun _ _ _ => False) fun _ _ _ => False)

namespace Ty

/-- The id of the named type at a node. -/
def namesAt : Shape → List Nat
  | .generic (.user id) => [id]
  | _ => []

mutual

/-- The ids of the named types in a type. -/
def names : Ty → List Nat
  | .var _ => []
  | .node shape parts => namesAt shape ++ namesIn parts

def namesIn : List Ty → List Nat
  | [] => []
  | t :: ts => t.names ++ namesIn ts

end

theorem mem_names_of_part {shape : Shape} {parts : List Ty} {part : Ty} {id : Nat}
    (hp : part ∈ parts) (h : id ∈ part.names) : id ∈ (node shape parts).names := by
  have hin : ∀ ts : List Ty, part ∈ ts → id ∈ namesIn ts := fun ts hts => by
    induction ts with
    | nil => cases hts
    | cons t ts ih =>
      rw [namesIn, mem_append]
      grind
  rw [names, mem_append]
  exact .inr (hin parts hp)

end Ty

namespace Resolver

variable {us : List Ty} {m : TyVar → Option Ty} {t u : Ty} {shape : Shape} {fuel : Nat}
  {ok : TyVar → TraitKey → Symbol → Prop} {headed : TypeRef → TraitKey → Symbol → Prop}

variable {r : Resolver}

/-- A type reduces to a canonical one. -/
def Ends (r : Resolver) (t : Ty) : Prop := ∃ u, r.Reduces t u ∧ r.Canonical u

/-- The target of an alias reduces, whatever canonical types its parameters stand for. -/
def AliasReduces (r : Resolver) (info : AliasInfo) : Prop :=
  info.target.NoRow ∧ ∀ m : TyVar → Option Ty, (∀ v c, m v = some c → r.Canonical c) →
    r.Ends (info.target.subst m)

theorem mem_of_lookup_zip {vs : List TyVar} {v : TyVar} {c : Ty}
    (h : (vs.zip us).reverse.lookup v = some c) : c ∈ us := by
  exact (of_mem_zip (mem_reverse.mp (mem_of_lookup h))).2

theorem eq_var_of_subst_con {head : Head} {rest : List Ty}
    (ht : t.Everywhere (TemplateAt ok headed)) (h : t.subst m = .node (.con head) rest) :
    ∃ v, m v = some (.node (.con head) rest) := by
  cases t with
  | var v =>
    cases hv : m v with
    | none => simp [hv] at h
    | some c => exact ⟨v, by simpa [hv] using h⟩
  | node shape parts =>
    exact absurd (eq_con_of_rebuilt h) ((everywhere_node.mp ht).1.2.1 head)

/-- A node reduces to what the node of its canonical parts reduces to. -/
theorem Ends.of_parts {parts : List Ty} (hp : List.Forall₂ r.Reduces parts us)
    (hc : ∀ u ∈ us, r.Canonical u) (hu : r.Ends (.node shape us)) : r.Ends (.node shape parts) := by
  obtain ⟨u, hu, hcn⟩ := hu
  obtain ⟨n, hn⟩ := exists_mapM (fun n t => canonicalize_below n t) hp
  obtain ⟨m, hm⟩ := exists_mapM (fun n t => canonicalize_below n t)
    (forall₂_same.mpr fun part hpr => (hc part hpr).reduces)
  obtain ⟨k, hk⟩ := hu
  have hd : ∀ {fuel : Nat} {xs ys : List Ty}, fuel ≤ n + m + k →
      xs.mapM (r.canonicalize fuel) = some ys → xs.mapM (r.canonicalize (n + m + k)) = some ys :=
    fun hle h => Below.mapM (fun t => below_of_le (fun n t => canonicalize_below n t) hle t) _ _ h
  refine ⟨u, ⟨n + m + k + 1, ?_⟩, hcn⟩
  have hk := canonicalize_of_le hk (show k ≤ n + m + k + 1 by omega)
  rw [canonicalize, hd (by omega) hm] at hk
  rw [canonicalize, hd (by omega) hn]
  exact hk

/-- The head of a type that is no alias stays. -/
theorem headOfCanon_of_reduces {head : TypeRef} (hh : headOfCanon t = some head)
    (ha : r.lookupAlias head = none) (hu : r.Reduces (t.subst m) u) :
    headOfCanon u = some head := by
  cases t with
  | var _ => cases hh
  | node shape parts =>
    have hs : shape ≠ .app := by
      rintro rfl
      cases hh
    rw [subst_node, rebuilt_eq_node hs] at hu
    obtain ⟨fuel, hu⟩ := hu
    cases fuel with
    | zero => cases hu
    | succ fuel =>
      obtain ⟨us, -, hu⟩ := bind_eq_some_iff.mp hu
      split at hu
      next name _ =>
        obtain rfl : name = head := by simpa [headOfCanon] using hh
        rw [ha] at hu
        cases hu
        rfl
      · cases hh
      · rw [rebuilt_eq_node hs] at hu
        cases hu
        exact hh

/-- A node of canonical parts reduces, if the alias that it names does, or the projection that it
is. -/
theorem node_reduces (hc : ∀ u ∈ us, r.Canonical u)
    (hco : ∀ ref, shape = .con (.named ref) → r.lookupAlias ref = none)
    (ha : ∀ id info, shape = .generic (.user id) → r.lookupAlias (.user id) = some info →
      r.AliasReduces info)
    (hp : ∀ tr nm c, shape = .assocProj tr nm → us = [c] → r.Ends (.node shape us)) :
    r.Ends (.node shape us) := by
  have hsl := forall₂_same.mpr fun u hu => (hc u hu).reduces
  by_cases hn : ∀ name, shape = .generic name → r.lookupAlias name = none
  · by_cases hpr : ∃ tr nm c, shape = .assocProj tr nm ∧ us = [c]
    · obtain ⟨tr, nm, c, hs, hu⟩ := hpr
      exact hp tr nm c hs hu
    · push Not at hpr
      refine ⟨rebuilt shape us, reduces_node shape hsl hn fun tr nm hs hl => ?_,
        canonical_rebuilt shape hc hn hco fun tr nm c _ hs hu => absurd hu (hpr tr nm c hs)⟩
      obtain ⟨c, hu⟩ := length_eq_one_iff.mp hl
      exact hpr tr nm c hs hu
  · push Not at hn
    obtain ⟨name, rfl, hn⟩ := hn
    obtain ⟨info, hi⟩ := ne_none_iff_exists'.mp hn
    cases name with
    | builtin _ => cases hi
    | user id =>
      obtain ⟨hrw, hr⟩ := ha id info rfl hi
      obtain ⟨u, hu, hcn⟩ := hr (fun v => (info.paramVarIds.zip us).reverse.lookup v)
        fun v c hv => hc c (mem_of_lookup_zip hv)
      exact ⟨u, reduces_alias hi hrw hsl hu, hcn⟩

/-- A type constructor that is canonical, applied to a type that reduces. -/
theorem Ends.apply {head : Head} {rest : List Ty} (hc : r.Canonical (.node (.con head) rest))
    (ht : r.Ends t) : r.Ends (rebuilt .app [.node (.con head) rest, t]) := by
  obtain ⟨u, hu, hcn⟩ := ht
  have hp : ∀ part ∈ [.node (.con head) rest, u], r.Canonical part := by
    simpa using ⟨hc, hcn⟩
  exact ⟨head.apply rest u, reduces_apply hc hu, canonical_rebuilt .app hp nofun nofun nofun⟩

/-- A template reduces at canonical types, if its aliases and its projections do. -/
theorem template_reduces (hm : ∀ v c, m v = some c → r.Canonical c)
    (ha : ∀ id info, id ∈ t.names → r.lookupAlias (.user id) = some info → r.AliasReduces info)
    (ht : t.Everywhere (TemplateAt
      (fun v tr nm => r.Ends (.node (.assocProj tr nm) [(Ty.var v).subst m]))
      fun head tr nm => r.lookupAlias head = none ∧ ∀ c, r.Canonical c →
        headOfCanon c = some head → r.Ends (.node (.assocProj tr nm) [c]))) :
    r.Ends (t.subst m) := by
  induction t using ind with
  | var v =>
    cases hv : m v with
    | none => exact ⟨.var v, by simpa [hv] using reduces_var v, trivial⟩
    | some c => exact ⟨c, by simpa [hv] using (hm v c hv).reduces, hm v c hv⟩
  | node shape parts ih =>
    obtain ⟨⟨hrw, hcon, hpj⟩, hpr⟩ := everywhere_node.mp ht
    obtain ⟨us, hus⟩ := exists_forall₂ fun part hpa => ih part hpa
      (fun id info hid => ha id info (mem_names_of_part hpa hid)) (hpr part hpa)
    have hca : ∀ u ∈ us, r.Canonical u := fun u hu =>
      (exists_of_mem_forall₂ hus hu).elim fun _ h => h.2.2
    have hrd : List.Forall₂ r.Reduces (parts.map (subst m)) us :=
      forall₂_map_left_iff.mpr (hus.imp fun _ _ h => h.1)
    rw [subst_node]
    by_cases hap : ∀ head rest arg, shape = .app →
        parts.map (subst m) ≠ [.node (.con head) rest, arg]
    · rw [rebuilt_self hap]
      by_cases hv : ∃ tr nm v, shape = .assocProj tr nm ∧ parts = [.var v] ∧
          r.Ends (.node (.assocProj tr nm) [(Ty.var v).subst m])
      · obtain ⟨tr, nm, v, rfl, rfl, hv⟩ := hv
        exact hv
      · refine .of_parts hrd hca (node_reduces hca (fun ref hs => absurd hs (hcon _))
          (fun id info hs hi => ha id info (by simp [names, namesAt, hs]) hi) ?_)
        rintro tr nm c rfl rfl
        obtain ⟨v, rfl, hv'⟩ | ⟨receiver, head, rfl, hh, hna, hred⟩ := hpj tr nm rfl
        · exact absurd ⟨tr, nm, v, rfl, rfl, hv'⟩ hv
        · obtain ⟨hrc, hcc⟩ := (forall₂_cons.mp hus).1
          exact hred c hcc (headOfCanon_of_reduces hh hna hrc)
    · -- The constructor came from a variable, and with it all but the argument is canonical.
      push Not at hap
      obtain ⟨head, rest, arg, rfl, har⟩ := hap
      obtain ⟨front, back, rfl, hf, hb⟩ : ∃ front back, parts = [front, back] ∧
          front.subst m = .node (.con head) rest ∧ back.subst m = arg := by
        obtain ⟨front, tail, rfl, hf, htl⟩ := map_eq_cons_iff.mp har
        simp_all
      obtain ⟨v, hv⟩ := eq_var_of_subst_con (hpr front (by simp)) hf
      rw [har, ← hb]
      exact .apply (hm v _ hv) (ih back (by simp) (fun id info hid => ha id info
        (mem_names_of_part (by simp) hid)) (hpr back (by simp)))

/-! ### Aliases and projections -/

/-- An alias whose target has another alias in it. -/
def Uses (r : Resolver) (a b : Nat) : Prop :=
  ∃ info other, r.lookupAlias (.user a) = some info ∧ r.lookupAlias (.user b) = some other ∧
    b ∈ info.target.names

/-- No alias leads back to itself. -/
def Acyclic (r : Resolver) : Prop := ∀ a, ¬ Relation.TransGen r.Uses a a

/-- What stands in the registries.  Aliases have no projections.  The projections of a binding are
of variables, or of types whose heads are no aliases; the impl is for a type that is no variable;
and what a projection of a type with a head leads to has no projection of a variable. -/
structure Tame (r : Resolver) : Prop where
  plain : ∀ name info, r.lookupAlias name = some info → Plain info.target
  template : ∀ key binding, r.assocBindings.lookup key = some binding →
    Template (fun head => r.lookupAlias head = none) binding.ty
  target : ∀ key binding, r.assocBindings.lookup key = some binding →
    ∃ shape parts, binding.of = .node shape parts
  closed : ∀ key key' binding, r.Leads (fun head => r.lookupAlias head = none) key key' →
    r.assocBindings.lookup key' = some binding → Closed binding.ty

theorem mem_keys_of_lookup {α β : Type} [BEq α] [LawfulBEq α] {xs : List (α × β)} {a : α}
    (h : (xs.lookup a).isSome) : a ∈ xs.map Prod.fst := by
  simp_all

theorem Uses.wellFounded (h : r.Acyclic) : WellFounded fun b a => r.Uses a b := by
  refine wellFounded_of_list (r.aliases.map Prod.fst) (fun a b hab => ?_) h
  obtain ⟨info, other, hi, ho, -⟩ := hab
  exact ⟨mem_keys_of_lookup (isSome_iff_exists.mpr ⟨info, hi⟩),
    mem_keys_of_lookup (isSome_iff_exists.mpr ⟨other, ho⟩)⟩

theorem Leads.wellFounded (hr : Reached r) :
    WellFounded fun b a => r.Leads (fun head => r.lookupAlias head = none) a b := by
  refine wellFounded_of_list (r.assocBindings.map Prod.fst) (fun a b hab => ?_)
    (hr.not_leads fun _ h => h)
  obtain ⟨hb, binding, hl, -⟩ := hab
  exact ⟨mem_keys_of_lookup (isSome_iff_exists.mpr ⟨binding, hl⟩), mem_keys_of_lookup hb⟩

theorem Template.noRow (h : t.Everywhere (TemplateAt ok headed)) : t.NoRow :=
  h.imp fun _ _ h => h.1

theorem Tame.aliasReduces (h : r.Tame) (ha : r.Acyclic) (id : Nat) (info : AliasInfo)
    (hi : r.lookupAlias (.user id) = some info) : r.AliasReduces info := by
  induction id using (Uses.wellFounded ha).induction generalizing info with
  | _ id ih =>
    have hp := h.plain (.user id) info hi
    refine ⟨Template.noRow hp, fun m hm => template_reduces hm (fun other o hot ho => ?_) ?_⟩
    · exact ih other ⟨info, o, hi, ho, hot⟩ o ho
    · refine hp.imp fun shape parts hat =>
        ⟨hat.1, hat.2.1, fun tr nm hs => ?_⟩
      obtain ⟨_, -, ⟨⟩⟩ | ⟨_, _, -, -, ⟨⟩⟩ := hat.2.2 tr nm hs

/-- What the variables of several types stand for is known, or is a part of the instances. -/
theorem instanceAll_mem {gs : List Ty}
    (ih : ∀ g ∈ gs, ∀ t stands out, instanceOf g t stands = some out → r.Canonical t →
      ∀ v c, (v, c) ∈ out → (v, c) ∈ stands ∨ r.Canonical c ∧ c.size ≤ t.size)
    (as : List Ty) (stands out : Stands) (h : instanceAll gs as stands = some out)
    (has : ∀ a ∈ as, r.Canonical a) :
    ∀ v c, (v, c) ∈ out → (v, c) ∈ stands ∨ r.Canonical c ∧ c.size ≤ sizes as := by
  induction gs generalizing as stands with
  | nil =>
    cases as with
    | cons _ _ => simp [instanceAll] at h
    | nil =>
      obtain rfl : stands = out := by simpa [instanceAll] using h
      exact fun v c hc => .inl hc
  | cons g gs ihs =>
    cases as with
    | nil => simp [instanceAll] at h
    | cons a as =>
      obtain ⟨known, hk, h⟩ := bind_eq_some_iff.mp h
      intro v c hc
      rw [sizes]
      grind

theorem instanceOf_node {gs : List Ty} {stands out : Stands}
    (ih : ∀ g ∈ gs, ∀ t stands out, instanceOf g t stands = some out → r.Canonical t →
      ∀ v c, (v, c) ∈ out → (v, c) ∈ stands ∨ r.Canonical c ∧ c.size ≤ t.size)
    (h : instanceOf (.node shape gs) t stands = some out) (ht : r.Canonical t) :
    ∀ v c, (v, c) ∈ out → (v, c) ∈ stands ∨ r.Canonical c ∧ c.size < t.size := by
  cases t with
  | var _ => simp [instanceOf] at h
  | node a as =>
    rw [instanceOf] at h
    split at h
    · split at h
      · intro v c hc
        obtain hc | ⟨hcn, hs⟩ := instanceAll_mem ih as stands out h (canonical_node.mp ht).2 v c hc
        · exact .inl hc
        · exact .inr ⟨hcn, by rw [size]; omega⟩
      · cases h
    grind

theorem instanceOf_mem {g : Ty} {stands out : Stands} (h : instanceOf g t stands = some out)
    (ht : r.Canonical t) :
    ∀ v c, (v, c) ∈ out → (v, c) ∈ stands ∨ r.Canonical c ∧ c.size ≤ t.size := by
  induction g using ind generalizing t stands out with
  | var w =>
    rw [instanceOf] at h
    grind
  | node g gs ih =>
    exact fun v c hc => (instanceOf_node (fun g hg t stands out h ht => ih g hg h ht) h ht v c
      hc).imp_right fun hn => ⟨hn.1, hn.2.le⟩

/-- What the variables of an impl's target stand for are canonical parts of the receiver, smaller
than it. -/
theorem instanceOf_node_mem {gs : List Ty} {out : Stands}
    (h : instanceOf (.node shape gs) t [] = some out) (ht : r.Canonical t) (v : TyVar) (c : Ty)
    (hc : (v, c) ∈ out) : r.Canonical c ∧ c.size < t.size :=
  (instanceOf_node (fun _ _ _ _ _ h ht => instanceOf_mem h ht) h ht v c hc).resolve_left not_mem_nil

theorem Template.subst_none (h : t.Everywhere (TemplateAt ok headed)) :
    t.subst (fun _ => none) = t := by
  induction t using ind with
  | var v => rfl
  | node shape parts ih =>
    obtain ⟨hat, hp⟩ := everywhere_node.mp h
    have hs : parts.map (subst fun _ => none) = parts :=
      (map_congr_left fun part hpr => ih part hpr (hp part hpr)).trans (map_id' parts)
    rw [subst_node, hs, rebuilt_self]
    rintro head rest arg rfl rfl
    exact (everywhere_node.mp (hp (.node (.con head) rest) (by simp))).1.2.1 head rfl

theorem proj_stays {tr : TraitKey} {nm : Symbol} {c : Ty} (hc : r.Canonical c)
    (hn : ∀ head, headOfCanon c = some head →
      r.assocBindings.lookup (tr, dispatch head, nm) = none) :
    r.Ends (.node (.assocProj tr nm) [c]) := by
  refine ⟨_, reduces_proj hc.reduces fun head hh =>
    ⟨lookupAlias_head hc hh, hn head hh⟩, canonical_node.mpr ⟨?_, by simpa using hc⟩⟩
  refine ⟨nofun, nofun, nofun, ?_⟩
  rintro tn an receiver head ⟨⟩ ⟨⟩ hh
  exact hn head hh

/-- A projection of a type with a head reduces if what an impl binds does, at parts of the
receiver. -/
theorem Tame.headed_reduces (h : r.Tame) {tr : TraitKey} {nm : Symbol} {c : Ty} {head : TypeRef}
    (hc : r.Canonical c) (hh : headOfCanon c = some head)
    (hr : ∀ binding, r.assocBindings.lookup (tr, dispatch head, nm) = some binding →
      ∀ m : TyVar → Option Ty, (∀ v c', m v = some c' → r.Canonical c' ∧ c'.size < c.size) →
        r.Ends (binding.ty.subst m)) : r.Ends (.node (.assocProj tr nm) [c]) := by
  cases hb : r.assocBindings.lookup (tr, dispatch head, nm) with
  | none =>
    refine proj_stays hc fun head' hh' => ?_
    obtain rfl : head = head' := Option.some.inj (hh.symm.trans hh')
    exact hb
  | some binding =>
    have ht := h.template _ _ hb
    obtain ⟨shape, gs, hof⟩ := h.target _ _ hb
    obtain ⟨m, hm, hbn⟩ : ∃ m : TyVar → Option Ty,
        (∀ v c', m v = some c' → r.Canonical c' ∧ c'.size < c.size) ∧
        ∃ fuel, boundAt fuel binding c = some (binding.ty.subst m) := by
      cases hs : instanceOf binding.of c [] with
      | none =>
        refine ⟨fun _ => none, by rintro _ _ ⟨⟩, 0, ?_⟩
        rw [Template.subst_none ht, boundAt, hs]
      | some stands =>
        refine ⟨fun v => stands.lookup v, fun v c' hv => ?_, binding.ty.size, ?_⟩
        · exact instanceOf_node_mem (hof ▸ hs) hc v c' (mem_of_lookup hv)
        · rw [boundAt, hs]
          exact substituteVars_eq_some _ (Template.noRow ht) le_rfl
    obtain ⟨u, hu, hcn⟩ := hr binding hb m hm
    exact ⟨u, reduces_bound hc.reduces hh (lookupAlias_head hc hh) hb hbn hu, hcn⟩

/-- What a key is bound to reduces at canonical types, if its projections of variables do, and what
its other projections lead to. -/
theorem Tame.binding_reduces (h : r.Tame) (ha : r.Acyclic) {key : AssocKey} {binding : AssocBinding}
    (hb : r.assocBindings.lookup key = some binding) (hm : ∀ v c, m v = some c → r.Canonical c)
    (hv : binding.ty.Everywhere (TemplateAt
      (fun v tr nm => r.Ends (.node (.assocProj tr nm) [(Ty.var v).subst m])) fun _ _ _ => True))
    (hl : ∀ key' binding', r.Leads (fun head => r.lookupAlias head = none) key key' →
      r.assocBindings.lookup key' = some binding' → ∀ m : TyVar → Option Ty,
      (∀ v c, m v = some c → r.Canonical c) → r.Ends (binding'.ty.subst m)) :
    r.Ends (binding.ty.subst m) := by
  refine template_reduces hm (fun id info _ => h.aliasReduces ha id info) ?_
  refine ((hv.and (h.template key binding hb)).and (everywhere_somewhere _)).imp
    fun shape parts ⟨⟨hvat, hat⟩, hsw⟩ => ⟨hat.1, hat.2.1, fun tr nm hs => ?_⟩
  refine (hvat.2.2 tr nm hs).imp_right fun ⟨receiver, head, hp, hh, _⟩ => ?_
  obtain ⟨v, hv, -⟩ | ⟨receiver', head', hp', hh', hna⟩ := hat.2.2 tr nm hs
  · rw [hp, singleton_inj] at hv
    rw [hv] at hh
    cases hh
  · obtain rfl : receiver = receiver' := singleton_inj.mp (hp.symm.trans hp')
    obtain rfl : head = head' := Option.some.inj (hh.symm.trans hh')
    refine ⟨receiver, head, hp, hh, hna, fun c hc hhc => ?_⟩
    refine h.headed_reduces hc hhc fun binding' hb' m hm =>
      hl _ _ ?_ hb' m fun v c hv => (hm v c hv).1
    exact ⟨isSome_of_mem hb', binding, hb, hsw _ ⟨tr, nm, receiver, head, hs, hp, hh, hna, rfl⟩⟩

/-- What has no projection of a variable reduces: its keys go on without an end only in a cycle. -/
theorem Tame.closed_reduces (hr : Reached r) (h : r.Tame) (ha : r.Acyclic) (key : AssocKey)
    (binding : AssocBinding) (hb : r.assocBindings.lookup key = some binding)
    (hc : Closed binding.ty) (m : TyVar → Option Ty) (hm : ∀ v c, m v = some c → r.Canonical c) :
    r.Ends (binding.ty.subst m) := by
  induction key using (Leads.wellFounded hr).induction generalizing binding m with
  | _ key ih =>
    refine h.binding_reduces ha hb hm ?_ fun key' binding' hl hb' m hm =>
      ih key' hl binding' hb' (h.closed key key' binding' hl hb') m hm
    refine hc.imp fun shape parts hat => ⟨hat.1, hat.2.1, fun tr nm hs => ?_⟩
    exact (hat.2.2 tr nm hs).imp_left fun ⟨_, _, hf⟩ => hf.elim

/-- A projection of a canonical type reduces: what the impl binds has projections of smaller types,
and such as lead to what has none of a variable. -/
theorem Tame.proj_reduces (hr : Reached r) (h : r.Tame) (ha : r.Acyclic) (tr : TraitKey)
    (nm : Symbol) (c : Ty) (hc : r.Canonical c) : r.Ends (.node (.assocProj tr nm) [c]) := by
  induction hsz : c.size using Nat.strong_induction_on generalizing c tr nm with
  | _ n ih =>
    subst hsz
    cases hh : headOfCanon c with
    | none => exact proj_stays hc (by simp [hh])
    | some head =>
      refine h.headed_reduces hc hh fun binding hb m hm => ?_
      refine h.binding_reduces ha hb (fun v c' hv => (hm v c' hv).1) ?_
        fun key' binding' hl hb' m hm =>
          h.closed_reduces hr ha key' binding' hb' (h.closed _ _ _ hl hb') m hm
      refine (h.template _ _ hb).imp fun shape parts hat => ⟨hat.1, hat.2.1, fun tn an hsh => ?_⟩
      refine (hat.2.2 tn an hsh).imp (fun ⟨v, hv, _⟩ => ⟨v, hv, ?_⟩)
        fun ⟨receiver, head, hp, hh, _⟩ => ⟨receiver, head, hp, hh, trivial⟩
      cases hmv : m v with
      | some c' =>
        obtain ⟨hcn, hlt⟩ := hm v c' hmv
        simpa [hmv] using ih _ hlt tn an c' hcn rfl
      | none => simpa [hmv] using proj_stays (r := r) (c := .var v) trivial (by rintro _ ⟨⟩)

/-! ### Every type -/

/-- No alias stands as a bare type constructor. -/
def Clean (r : Resolver) : Ty → Prop :=
  Everywhere fun shape _ => ∀ ref, shape = .con (.named ref) → r.lookupAlias ref = none

theorem Tame.reduces (hr : Reached r) (h : r.Tame) (ha : r.Acyclic) (ht : r.Clean t) :
    r.Ends t := by
  induction t using ind with
  | var v => exact ⟨.var v, reduces_var v, trivial⟩
  | node shape parts ih =>
    obtain ⟨hco, hp⟩ := everywhere_node.mp ht
    obtain ⟨us, hus⟩ := exists_forall₂ fun part hpa => ih part hpa (hp part hpa)
    have hrd : List.Forall₂ r.Reduces parts us := hus.imp fun _ _ h => h.1
    have hcn : ∀ u ∈ us, r.Canonical u := fun u hu =>
      (exists_of_mem_forall₂ hus hu).elim fun _ h => h.2.2
    refine .of_parts hrd hcn (node_reduces hcn hco (fun id info _ => h.aliasReduces ha id info) ?_)
    rintro tr nm c rfl rfl
    exact h.proj_reduces hr ha tr nm c (hcn c (by simp))

theorem acyclic_of_not_uses (h : ∀ a b, ¬ r.Uses a b) : r.Acyclic := fun a hc => by
  grind

/-- Canonicalisation ends, with a type it does not change. -/
theorem canonicalize_ends (hr : Reached r) (htame : r.Tame) (hacyclic : r.Acyclic) {t : Ty}
    (ht : r.Clean t) :
    ∃ u fuel, ∀ more, fuel ≤ more →
      r.canonicalize more t = some u ∧ r.canonicalize more u = some u := by
  obtain ⟨u, ⟨n, hn⟩, hc⟩ := htame.reduces hr hacyclic ht
  obtain ⟨m, hm⟩ := hc.reduces
  exact ⟨u, n + m, fun more hle =>
    ⟨canonicalize_of_le hn (by omega), canonicalize_of_le hm (by omega)⟩⟩

/-! ### Two traits -/

/-- The projection of the first trait at a type. -/
def itemOf (t : Ty) : Ty := .node (.assocProj 1 1) [t]

/-- The projection of the second trait at a type. -/
def outOf (t : Ty) : Ty := .node (.assocProj 2 2) [t]

/-- A user's generic type with one parameter. -/
def box (t : Ty) : Ty := .node (.generic (.user 1)) [t]

def int : Ty := .node .int []

/-- The projection of a third trait at a type. -/
def nameOf (t : Ty) : Ty := .node (.assocProj 3 3) [t]

/-- An alias of the boxes, and the innermost item of nested boxes; the `Out` of a box is the name of
`Int`. -/
def boxes : Resolver where
  aliases := [(0, ⟨[0], box (.var 0)⟩)]
  assocBindings :=
    [((3, .builtin "Int", 3), ⟨int, int⟩), ((2, .user 1, 2), ⟨nameOf int, box (.var 0)⟩),
      ((1, .user 1, 1), ⟨itemOf (.var 0), box (.var 0)⟩)]

theorem boxes_reached : Reached boxes :=
  (((Relation.ReflTransGen.single (.named new 0 ⟨[0], box (.var 0)⟩)).tail
    (.binding _ _ 10 1 (.user 1) 1 (itemOf (.var 0)) (box (.var 0)) rfl)).tail
    (.binding _ _ 10 2 (.user 1) 2 (nameOf int) (box (.var 0)) rfl)).tail
    (.binding _ boxes 10 3 (.builtin "Int") 3 int int rfl)

theorem boxes_tame : boxes.Tame := by
  have hb {key : AssocKey} {binding : AssocBinding}
      (h : boxes.assocBindings.lookup key = some binding) :
      key = (3, .builtin "Int", 3) ∧ binding = ⟨int, int⟩ ∨
        key = (2, .user 1, 2) ∧ binding = ⟨nameOf int, box (.var 0)⟩ ∨
        key = (1, .user 1, 1) ∧ binding = ⟨itemOf (.var 0), box (.var 0)⟩ := by
    simpa [boxes] using mem_of_lookup h
  refine ⟨fun name info h => ?_, fun key binding h => ?_, fun key binding h => ?_,
    fun key key' binding hl h => ?_⟩
  · cases name with
    | builtin _ => cases h
    | user id =>
      obtain ⟨-, rfl⟩ : id = 0 ∧ info = ⟨[0], box (.var 0)⟩ := by
        simpa [boxes] using mem_of_lookup h
      exact ⟨⟨nofun, nofun, nofun⟩, trivial, trivial⟩
  · rcases hb h with ⟨-, rfl⟩ | ⟨-, rfl⟩ | ⟨-, rfl⟩
    · exact ⟨⟨nofun, nofun, nofun⟩, trivial⟩
    · exact ⟨⟨nofun, nofun, fun _ _ _ => .inr ⟨int, _, rfl, rfl, rfl⟩⟩,
        ⟨⟨nofun, nofun, nofun⟩, trivial⟩, trivial⟩
    · exact ⟨⟨nofun, nofun, fun _ _ _ => .inl ⟨0, rfl, trivial⟩⟩, trivial, trivial⟩
  · rcases hb h with ⟨-, rfl⟩ | ⟨-, rfl⟩ | ⟨-, rfl⟩ <;> exact ⟨_, _, rfl⟩
  · -- only the name of `Int` is a projection of a type with a head
    obtain ⟨-, from', hf, hs⟩ := hl
    have hk : key' = (3, .builtin "Int", 3) := by
      rcases hb hf with ⟨-, rfl⟩ | ⟨-, rfl⟩ | ⟨-, rfl⟩ <;>
        simp [Ty.Somewhere, Everywhere, EverywhereIn, ProjectsTo, int, nameOf, itemOf, headOfCanon,
          dispatch] at hs
      exact hs.2
    subst hk
    obtain rfl : ⟨int, int⟩ = binding := Option.some.inj h
    exact ⟨⟨nofun, nofun, nofun⟩, trivial⟩

theorem canonicalize_ends_boxes :
    ∃ u fuel, ∀ more, fuel ≤ more →
      boxes.canonicalize more
        (.node .tuple [itemOf (.node (.generic (.user 0)) [box int]), outOf (box int)]) = some u ∧
      boxes.canonicalize more u = some u := by
  refine canonicalize_ends boxes_reached boxes_tame (acyclic_of_not_uses ?_) ?_
  · rintro a b ⟨info, other, hi, ho, hb⟩
    have he : ∀ {id i}, boxes.lookupAlias (.user id) = some i →
        (id, i) ∈ [(0, (⟨[0], box (.var 0)⟩ : AliasInfo))] := mem_of_lookup
    obtain ⟨rfl, rfl⟩ := by simpa using he hi
    obtain ⟨rfl, rfl⟩ := by simpa using he ho
    simp [box, names, namesAt, namesIn] at hb
  · simp [Clean, everywhere_node, itemOf, outOf, box, int]

/-- `Int` binds `Out` to `<Box(Int) as First>::Item`, and `Box(a)` binds `Item` to
`<a as Second>::Out`. -/
def twoBindings : Resolver where
  aliases := []
  assocBindings :=
    [((1, .user 1, 1), ⟨outOf (.var 0), box (.var 0)⟩),
      ((2, .builtin "Int", 2), ⟨itemOf (box int), int⟩)]

/-- Each of the two projections is replaced by the other. -/
theorem twoBindings_none (fuel : Nat) :
    twoBindings.canonicalize fuel (outOf int) = none ∧
      twoBindings.canonicalize fuel (itemOf (box int)) = none := by
  induction fuel with
  | zero => exact ⟨rfl, rfl⟩
  | succ fuel ih =>
    match fuel, ih with
    | 0, _ | 1, _ | 2, _ | 3, _ => exact ⟨rfl, rfl⟩
    | fuel + 4, ih => exact ⟨ih.2, ih.1⟩

/-- Both bindings are accepted, the one that `Box` binds last: from it the only projection is of a
variable. -/
theorem canonicalize_runs_on :
    ∃ r r', new.registerAssocBinding 10 2 (.builtin "Int") 2 (itemOf (box int)) int =
        some (.ok r) ∧
      r.registerAssocBinding 10 1 (.user 1) 1 (outOf (.var 0)) (box (.var 0)) = some (.ok r') ∧
      r'.Acyclic ∧ ∀ fuel, r'.canonicalize fuel (outOf int) = none := by
  refine ⟨_, twoBindings, rfl, rfl, acyclic_of_not_uses ?_, fun fuel => (twoBindings_none fuel).1⟩
  rintro a b ⟨info, other, hi, -⟩
  cases hi

end Resolver

end Silt.Types
