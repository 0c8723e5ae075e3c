import Silt.Typechecker.Impls

/-!
# Unification in a substitution of its own

`probeUnify` binds variables in a list and follows them there.  A substitution as a function
respects the list if each variable stands for what it is bound to.  The result of `probeUnify` is
then a most general one: the substitutions that respect it are those that respected the list before
and make the two types one.  Types that are found apart have no such substitution.

## Main definitions

* `apply` : the type with a type for each variable.
* `Respects` : each variable stands for what it is bound to.
* `Solves` : the result is a most general one, or there is none.

## Main results

* `probeUnify_solves`, `couldUnify_solves` : what is found is a most general substitution.
* `couldUnify_closed` : the depth is enough for closed types, so they are found to be instances or
  apart.
-/

namespace Silt.Impls

open List Option

open Silt.Types

variable {v x : TyVar} {ts parts : List Ty} {shape : Shape} {t other a b : Ty} {θ : TyVar → Ty}
  {s : Subst} {arity : TypeRef → Nat} {pairs : List (Ty × Ty)} {fuel : Nat} {fail : Fail}

/-! ### Substitutions -/

mutual

/-- The type with a type for each variable. -/
def apply (θ : TyVar → Ty) : Ty → Ty
  | .var v => θ v
  | .node shape parts => .node shape (applyAll θ parts)

def applyAll (θ : TyVar → Ty) : List Ty → List Ty
  | [] => []
  | t :: ts => apply θ t :: applyAll θ ts

end

@[simp] theorem apply_var (θ : TyVar → Ty) (v : TyVar) : apply θ (.var v) = θ v := by
  rw [apply]

theorem applyAll_eq_map (θ : TyVar → Ty) (ts : List Ty) : applyAll θ ts = ts.map (apply θ) := by
  induction ts with
  | nil => rw [applyAll, map_nil]
  | cons t ts ih => rw [applyAll, ih, map_cons]

@[simp] theorem apply_node (θ : TyVar → Ty) (shape : Shape) (parts : List Ty) :
    apply θ (.node shape parts) = .node shape (parts.map (apply θ)) := by
  rw [apply, applyAll_eq_map]

theorem freeVarsInAll_eq_flatMap (ts : List Ty) : freeVarsInAll ts = ts.flatMap freeVarsIn := by
  induction ts with
  | nil => rw [freeVarsInAll, flatMap_nil]
  | cons t ts ih => rw [freeVarsInAll, ih, flatMap_cons]

theorem mem_freeVarsInAll : v ∈ freeVarsInAll ts ↔ ∃ t ∈ ts, v ∈ freeVarsIn t := by
  rw [freeVarsInAll_eq_flatMap, mem_flatMap]

@[simp] theorem mem_freeVarsIn_var {w : TyVar} : v ∈ freeVarsIn (.var w) ↔ v = w := by
  rw [freeVarsIn, mem_singleton]

theorem mem_freeVarsIn_node :
    v ∈ freeVarsIn (.node shape parts) ↔ ∃ t ∈ parts, v ∈ freeVarsIn t := by
  rw [freeVarsIn, mem_freeVarsInAll]

theorem size_le_sizes (h : t ∈ ts) : t.size ≤ Ty.sizes ts := by
  induction ts with
  | nil => simp at h
  | cons u us ih =>
    rw [Ty.sizes]
    grind

theorem size_lt_of_mem (shape : Shape) (h : t ∈ parts) : t.size < (Ty.node shape parts).size := by
  have hle := size_le_sizes h
  rw [Ty.size]
  omega

theorem Ty.induction {motive : Ty → Prop} (var : ∀ v, motive (.var v))
    (node : ∀ shape parts, (∀ t ∈ parts, motive t) → motive (.node shape parts)) (t : Ty) :
    motive t := by
  induction hs : t.size using Nat.strongRecOn generalizing t with
  | _ m ih =>
    cases t with
    | var v => exact var v
    | node shape parts =>
      refine node shape parts fun t ht => ih t.size ?_ t rfl
      rw [← hs]
      exact size_lt_of_mem shape ht

theorem apply_congr {θ' : TyVar → Ty} (h : ∀ v ∈ freeVarsIn t, θ v = θ' v) :
    apply θ t = apply θ' t := by
  induction t using Ty.induction with
  | var v => simpa using h v
  | node shape parts ih =>
    rw [apply_node, apply_node]
    refine congrArg _ (List.map_congr_left fun t ht => ih t ht fun v hv => h v ?_)
    exact mem_freeVarsIn_node.mpr ⟨t, ht, hv⟩

/-- What one substitution makes of a type, another makes only if they agree on its variables. -/
theorem eq_of_apply_eq {θ' : TyVar → Ty} (h : apply θ t = apply θ' t) (hv : v ∈ freeVarsIn t) :
    θ v = θ' v := by
  induction t using Ty.induction with
  | var w =>
    rw [mem_freeVarsIn_var.mp hv]
    simpa using h
  | node shape parts ih =>
    obtain ⟨t, ht, hv⟩ := mem_freeVarsIn_node.mp hv
    rw [apply_node, apply_node] at h
    have hp : parts.map (apply θ) = parts.map (apply θ') := by injection h
    exact ih t ht (map_inj_left.mp hp t ht) hv

/-- A type is at least as large as what its variables stand for. -/
theorem size_le_of_mem_freeVarsIn (θ : TyVar → Ty) (hv : v ∈ freeVarsIn t) :
    (θ v).size ≤ (apply θ t).size := by
  induction t using Ty.induction with
  | var w =>
    rw [mem_freeVarsIn_var.mp hv]
    simp
  | node shape parts ih =>
    obtain ⟨t, ht, hv⟩ := mem_freeVarsIn_node.mp hv
    rw [apply_node]
    exact (ih t ht hv).trans (size_lt_of_mem _ (mem_map_of_mem ht)).le

theorem size_lt_of_mem_freeVarsIn (θ : TyVar → Ty) (hv : v ∈ freeVarsIn (.node shape parts)) :
    (θ v).size < (apply θ (.node shape parts)).size := by
  obtain ⟨t, ht, hv⟩ := mem_freeVarsIn_node.mp hv
  rw [apply_node]
  exact (size_le_of_mem_freeVarsIn θ hv).trans_lt (size_lt_of_mem _ (mem_map_of_mem ht))

theorem closed_part (h : freeVarsInAll ts = []) (ht : t ∈ ts) : freeVarsIn t = [] := by
  refine eq_nil_iff_forall_not_mem.mpr fun v hv => ?_
  have hm : v ∈ freeVarsInAll ts := mem_freeVarsInAll.mpr ⟨t, ht, hv⟩
  simp [h] at hm

theorem apply_closed (θ : TyVar → Ty) (h : freeVarsIn t = []) : apply θ t = t := by
  induction t using Ty.induction with
  | var v => simp [freeVarsIn] at h
  | node shape parts ih =>
    have hp : parts.map (apply θ) = parts.map id :=
      List.map_congr_left fun t ht => ih t ht (closed_part h ht)
    rw [apply_node, hp, List.map_id]

theorem map_apply_closed (θ : TyVar → Ty) (h : freeVarsInAll ts = []) : ts.map (apply θ) = ts := by
  have hid : ts.map (apply θ) = ts.map id :=
    List.map_congr_left fun t ht => apply_closed θ (closed_part h ht)
  rw [hid, List.map_id]

/-! ### What is bound -/

/-- Each variable stands for what it is bound to. -/
def Respects (θ : TyVar → Ty) (s : Subst) : Prop :=
  ∀ v t, s.lookup v = some t → θ v = apply θ t

/-- All that is bound is plain. -/
def PlainSubst (arity : TypeRef → Nat) (s : Subst) : Prop :=
  ∀ v t, s.lookup v = some t → Plain arity t

/-- The substitution makes the two types of each pair one. -/
def Unifies (θ : TyVar → Ty) (pairs : List (Ty × Ty)) : Prop :=
  ∀ pair ∈ pairs, apply θ pair.1 = apply θ pair.2

theorem respects_nil (θ : TyVar → Ty) : Respects θ [] := by
  intro v t h
  simp at h

theorem plainSubst_nil (arity : TypeRef → Nat) : PlainSubst arity [] := by
  intro v t h
  simp at h

theorem lookup_cons_eq (v : TyVar) :
    ((x, other) :: s).lookup v = if v = x then some other else s.lookup v := by
  grind

/-- To respect one more binding, of a variable that had none, is to respect the others and that. -/
theorem respects_cons (hx : s.lookup x = none) :
    Respects θ ((x, other) :: s) ↔ Respects θ s ∧ θ x = apply θ other := by
  constructor
  · intro h
    refine ⟨fun v t hv => ?_, h x other (by simp)⟩
    refine h v t ?_
    rw [lookup_cons_eq, if_neg ?_, hv]
    rintro rfl
    simp [hx] at hv
  · rintro ⟨hs, ho⟩ v t hv
    rw [lookup_cons_eq] at hv
    split_ifs at hv with hvx
    · rw [hvx, ho, some_inj.mp hv]
    · exact hs v t hv

theorem PlainSubst.cons (h : PlainSubst arity s) (x : TyVar) (ho : Plain arity other) :
    PlainSubst arity ((x, other) :: s) := by
  intro v t hv
  rw [lookup_cons_eq] at hv
  split_ifs at hv with hvx
  · rw [← some_inj.mp hv]
    exact ho
  · exact h v t hv

/-- What is found from `s` for the pairs: a most general substitution, or that there is none. -/
inductive Solves (arity : TypeRef → Nat) (s : Subst) (pairs : List (Ty × Ty)) :
    Except Fail Subst → Prop
  | ok {s' : Subst} (hplain : PlainSubst arity s')
      (h : ∀ θ, Respects θ s' ↔ Respects θ s ∧ Unifies θ pairs) : Solves arity s pairs (.ok s')
  | apart (h : ∀ θ, Respects θ s → ¬ Unifies θ pairs) : Solves arity s pairs (.error .apart)
  | deep : Solves arity s pairs (.error .deep)

theorem Solves.congr {pairs' : List (Ty × Ty)} {result : Except Fail Subst}
    (h : Solves arity s pairs result)
    (hi : ∀ θ, Respects θ s → (Unifies θ pairs ↔ Unifies θ pairs')) :
    Solves arity s pairs' result := by
  cases h with
  | ok hp h => exact .ok hp fun θ => (h θ).trans (and_congr_right fun hθ => hi θ hθ)
  | apart h => exact .apart fun θ hθ hu => h θ hθ ((hi θ hθ).mpr hu)
  | deep => exact .deep

theorem foldlM_solves {f : Subst → Ty × Ty → Except Fail Subst}
    (hf : ∀ pr ∈ pairs, ∀ s, PlainSubst arity s → Solves arity s [pr] (f s pr))
    (hs : PlainSubst arity s) : Solves arity s pairs (pairs.foldlM f s) := by
  induction pairs generalizing s with
  | nil => exact .ok hs fun θ => by simp [Unifies]
  | cons pr pairs ih =>
    rw [foldlM_cons]
    have hpr := hf pr mem_cons_self s hs
    have hf' : ∀ pr ∈ pairs, ∀ s, PlainSubst arity s → Solves arity s [pr] (f s pr) :=
      fun p hp => hf p (mem_cons_of_mem pr hp)
    cases hr : f s pr with
    | error fail =>
      rw [hr] at hpr
      cases hpr with
      | apart h =>
        refine .apart fun θ hθ hu => h θ hθ ?_
        simpa [Unifies] using hu pr mem_cons_self
      | deep => exact .deep
    | ok s' =>
      rw [hr] at hpr
      cases hpr with
      | ok hpl h =>
        have hrs := ih hf' hpl
        have hb : ∀ θ, Respects θ s' ∧ Unifies θ pairs ↔
            Respects θ s ∧ Unifies θ (pr :: pairs) := by
          intro θ
          rw [h θ]
          simp [Unifies, and_assoc]
        change Solves arity s (pr :: pairs) (pairs.foldlM f s')
        generalize pairs.foldlM f s' = result at hrs
        cases hrs with
        | ok hpl h => exact .ok hpl fun θ => (h θ).trans (hb θ)
        | apart h =>
          refine .apart fun θ hθ hu => ?_
          grind
        | deep => exact .deep

/-! ### Following a variable -/

/-- A followed type is the same under every substitution that respects what is bound, and a variable
it ends at is not bound. -/
theorem follow_spec (hs : PlainSubst arity s) {t' : Ty} (ht : Plain arity t)
    (h : follow s fuel t = .ok t') :
    Plain arity t' ∧ (∀ θ, Respects θ s → apply θ t' = apply θ t) ∧
      ∀ v, t' = .var v → s.lookup v = none := by
  induction fuel generalizing t with
  | zero => simp [follow] at h
  | succ fuel ih =>
    cases t with
    | node shape parts =>
      have hr : t' = .node shape parts := by simpa [follow] using h.symm
      subst hr
      exact ⟨ht, fun θ _ => rfl, nofun⟩
    | var v =>
      rw [follow] at h
      cases hv : s.lookup v with
      | none => grind
      | some next =>
        rw [hv] at h
        obtain ⟨hp, ha, hf⟩ := ih (hs v next hv) h
        refine ⟨hp, fun θ hθ => ?_, hf⟩
        rw [ha θ hθ, apply_var, hθ v next hv]

theorem follow_error (h : follow s fuel t = .error fail) : fail = .deep := by
  induction fuel generalizing t with
  | zero => simpa [follow] using h.symm
  | succ fuel ih =>
    cases t with
    | node shape parts => simp [follow] at h
    | var v =>
      rw [follow] at h
      grind

/-! ### The occurs check -/

/-- A check over a list says what it says at an element, unless it says no at all of them. -/
theorem anyM_eq {α : Type} {f : α → Except Fail Bool} {l : List α} {r : Except Fail Bool}
    (h : l.anyM f = r) (hr : r ≠ .ok false) : ∃ a ∈ l, f a = r := by
  induction l with
  | nil => exact absurd h.symm hr
  | cons a l ih =>
    rw [List.anyM] at h
    cases ha : f a with
    | error fail =>
      rw [ha] at h
      exact ⟨a, mem_cons_self, ha.trans h⟩
    | ok b =>
      rw [ha] at h
      cases b with
      | true => exact ⟨a, mem_cons_self, ha.trans h⟩
      | false =>
        obtain ⟨b, hb, hfb⟩ := ih h
        exact ⟨b, mem_cons_of_mem a hb, hfb⟩

/-- A variable that occurs in the type stands for at most what a variable of the type stands for. -/
theorem occurs_size (hθ : Respects θ s) (h : occurs s v fuel t = .ok true) :
    ∃ w ∈ freeVarsIn t, (θ v).size ≤ (θ w).size := by
  induction fuel generalizing t with
  | zero => simp [occurs] at h
  | succ fuel ih =>
    obtain ⟨w, hw, hy⟩ := anyM_eq h (by simp)
    refine ⟨w, hw, ?_⟩
    by_cases hwv : w = v
    · rw [hwv]
    · rw [if_neg hwv] at hy
      cases hl : s.lookup w with
      | none => simp [hl] at hy
      | some bound =>
        rw [hl] at hy
        obtain ⟨u, hu, hle⟩ := ih hy
        rw [hθ w bound hl]
        exact hle.trans (size_le_of_mem_freeVarsIn θ hu)

theorem occurs_error (h : occurs s v fuel t = .error fail) : fail = .deep := by
  induction fuel generalizing t with
  | zero => simpa [occurs] using h.symm
  | succ fuel ih =>
    obtain ⟨w, -, hw⟩ := anyM_eq h (by simp)
    grind

/-- A variable without a binding is bound to a type that it is not, unless it is in it. -/
theorem bindVar_solves (hs : PlainSubst arity s) (hx : s.lookup x = none) (hot : Plain arity other)
    (hne : ∀ y, other = .var y → x ≠ y ∧ s.lookup y = none) (fuel : Nat) :
    Solves arity s [(.var x, other)] (bindVar fuel x other s) := by
  rw [bindVar]
  cases ho : occurs s x fuel other with
  | error fail =>
    rw [occurs_error ho]
    exact .deep
  | ok b =>
    cases b with
    | false =>
      refine .ok (hs.cons x hot) fun θ => ?_
      rw [respects_cons hx]
      simp [Unifies]
    | true =>
      refine .apart fun θ hθ hu => ?_
      have heq : θ x = apply θ other := by simpa [Unifies] using hu
      cases other with
      | var y =>
        -- a variable that is not bound is not found to be another
        obtain ⟨hxy, hy⟩ := hne y rfl
        cases fuel with
        | zero => simp [occurs] at ho
        | succ fuel =>
          simp [occurs, freeVarsIn, List.anyM, hy, Ne.symm hxy] at ho
          cases ho
      | node shape parts =>
        obtain ⟨w, hw, hle⟩ := occurs_size hθ ho
        have hlt := size_lt_of_mem_freeVarsIn θ hw
        rw [heq] at hle
        omega

/-! ### The unification of plain types -/

/-- The unification of followed types, where both are plain. -/
def probePlain (fuel : Nat) (s : Subst) : Ty → Ty → Except Fail Subst
  | .var x, .var y => if x = y then .ok s else bindVar fuel x (.var y) s
  | .var x, .node g ys => bindVar fuel x (.node g ys) s
  | .node f xs, .var y => bindVar fuel y (.node f xs) s
  | .node f xs, .node g ys =>
    if f = g ∧ unifiesByParts f ∧ xs.length = ys.length then
      (xs.zip ys).foldlM (fun s pair => probeUnify fuel pair.1 pair.2 s) s
    else if f = g ∧ xs = ys then .ok s
    else .error .apart

theorem probeUnify_plain {a' b' : Ty} (ha : follow s (fuel + 1) a = .ok a')
    (hb : follow s (fuel + 1) b = .ok b') (hpa : Plain arity a') (hpb : Plain arity b') :
    probeUnify (fuel + 1) a b s = probePlain fuel s a' b' := by
  rw [probeUnify, ha, hb]
  cases hpa with
  | var x =>
    cases hpb with
    | var y => rfl
    | node hf h =>
      rename_i g ys
      cases g <;> first | rfl | exact hf.elim
  | node hf h =>
    rename_i f xs
    cases hpb with
    | var y => cases f <;> first | rfl | exact hf.elim
    | node hf' h' =>
      rename_i g ys
      cases f <;> first
        | exact hf.elim
        | (cases g <;> first | exact hf'.elim | rfl)

/-- Plain types of one shape are unified by parts, or have none. -/
theorem PartsFit.byParts_or_nil {n : Nat} (h : PartsFit arity shape n) :
    unifiesByParts shape = true ∨ n = 0 := by
  cases shape <;> simp_all [PartsFit, unifiesByParts]

theorem map_apply_eq_iff_zip (θ : TyVar → Ty) {xs ys : List Ty} (h : xs.length = ys.length) :
    xs.map (apply θ) = ys.map (apply θ) ↔ Unifies θ (xs.zip ys) := by
  induction xs generalizing ys with
  | nil => cases ys with
    | nil => simp [Unifies]
    | cons y ys => simp at h
  | cons x xs ih => cases ys with
    | nil => simp at h
    | cons y ys =>
      have hr := ih (Nat.succ.inj h)
      simp only [map_cons, List.cons.injEq, hr]
      simp [Unifies]

theorem probePlain_solves
    (hpr : ∀ {a b : Ty} {s : Subst}, Plain arity a → Plain arity b → PlainSubst arity s →
      Solves arity s [(a, b)] (probeUnify fuel a b s)) (hs : PlainSubst arity s)
    (ha : Plain arity a) (hb : Plain arity b) (hva : ∀ v, a = .var v → s.lookup v = none)
    (hvb : ∀ v, b = .var v → s.lookup v = none) :
    Solves arity s [(a, b)] (probePlain fuel s a b) := by
  cases a with
  | var x =>
    cases b with
    | var y =>
      rw [probePlain]
      split_ifs with hxy
      · refine .ok hs fun θ => ?_
        simp [Unifies, hxy]
      · refine bindVar_solves hs (hva x rfl) hb (fun z hz => ?_) fuel
        rw [← Ty.var.inj hz]
        exact ⟨hxy, hvb y rfl⟩
    | node g ys =>
      exact bindVar_solves hs (hva x rfl) hb nofun fuel
  | node f xs =>
    cases b with
    | var y =>
      refine (bindVar_solves hs (hvb y rfl) ha nofun fuel).congr fun θ _ => ?_
      simp [Unifies, eq_comm]
    | node g ys =>
      rw [probePlain]
      cases ha with
      | node hft hxs =>
        cases hb with
        | node hft' hys =>
          split_ifs with hp hsm
          · obtain ⟨rfl, -, hl⟩ := hp
            have hf : Solves arity s (xs.zip ys)
                ((xs.zip ys).foldlM (fun s pr => probeUnify fuel pr.1 pr.2 s) s) := by
              refine foldlM_solves (fun pr hpa s hs => ?_) hs
              have hm := of_mem_zip hpa
              exact hpr (hxs pr.1 hm.1) (hys pr.2 hm.2) hs
            refine hf.congr fun θ _ => ?_
            rw [← map_apply_eq_iff_zip θ hl]
            simp [Unifies]
          · obtain ⟨rfl, rfl⟩ := hsm
            exact .ok hs fun θ => by simp [Unifies]
          · refine .apart fun θ _ hu => ?_
            have heq : f = g ∧ xs.map (apply θ) = ys.map (apply θ) := by simpa [Unifies] using hu
            obtain ⟨rfl, hmp⟩ := heq
            have hl : xs.length = ys.length := by simpa using congrArg List.length hmp
            rcases hft.byParts_or_nil with hby | hn
            · exact hp ⟨rfl, hby, hl⟩
            grind

/-- What is found is a most general substitution. -/
theorem probeUnify_solves (fuel : Nat) (ha : Plain arity a) (hb : Plain arity b)
    (hs : PlainSubst arity s) : Solves arity s [(a, b)] (probeUnify fuel a b s) := by
  induction fuel generalizing a b s with
  | zero => exact .deep
  | succ fuel ih =>
    cases hfa : follow s (fuel + 1) a with
    | error fail =>
      rw [probeUnify, hfa, follow_error hfa]
      exact .deep
    | ok a' =>
      cases hfb : follow s (fuel + 1) b with
      | error fail =>
        rw [probeUnify, hfa, hfb, follow_error hfb]
        exact .deep
      | ok b' =>
        obtain ⟨hpa, haa, hva⟩ := follow_spec hs ha hfa
        obtain ⟨hpb, hap, hvb⟩ := follow_spec hs hb hfb
        have hsl : Solves arity s [(a', b')] (probePlain fuel s a' b') :=
          probePlain_solves (fun ha hb hs => ih ha hb hs) hs hpa hpb hva hvb
        rw [probeUnify_plain hfa hfb hpa hpb]
        refine hsl.congr fun θ hθ => ?_
        simp [Unifies, haa θ hθ, hap θ hθ]

theorem couldUnify_solves (fuel : Nat) {a b : List Ty} (ha : ∀ t ∈ a, Plain arity t)
    (hb : ∀ t ∈ b, Plain arity t) (h : a.length = b.length) :
    Solves arity [] (a.zip b) (couldUnify fuel a b) := by
  rw [couldUnify, if_pos h]
  refine foldlM_solves (fun pr hp s hs => ?_) (plainSubst_nil arity)
  have hm := of_mem_zip hp
  exact probeUnify_solves fuel (ha pr.1 hm.1) (hb pr.2 hm.2) hs

/-! ### Closed types -/

/-- All that is bound is plain and closed. -/
def Closed (arity : TypeRef → Nat) (s : Subst) : Prop :=
  ∀ v t, s.lookup v = some t → Plain arity t ∧ freeVarsIn t = []

theorem Closed.plainSubst (h : Closed arity s) : PlainSubst arity s := fun v t hv => (h v t hv).1

theorem closed_nil (arity : TypeRef → Nat) : Closed arity [] := by
  intro v t h
  simp at h

theorem Closed.cons (h : Closed arity s) (x : TyVar) (hp : Plain arity other)
    (ho : freeVarsIn other = []) : Closed arity ((x, other) :: s) := by
  intro v t hv
  rw [lookup_cons_eq] at hv
  split_ifs at hv with hvx
  · rw [← some_inj.mp hv]
    exact ⟨hp, ho⟩
  · exact h v t hv

/-- A substitution that respects what is bound, where that is closed. -/
theorem Closed.exists_respects (h : Closed arity s) : ∃ θ, Respects θ s := by
  refine ⟨fun v => (s.lookup v).getD (.var v), fun v t hv => ?_⟩
  rw [apply_closed _ (h v t hv).2]
  simp [hv]

/-- The depth was not reached, and what is bound is closed. -/
inductive Shallow (arity : TypeRef → Nat) : Except Fail Subst → Prop
  | ok {s : Subst} (h : Closed arity s) : Shallow arity (.ok s)
  | apart : Shallow arity (.error .apart)

theorem foldlM_shallow {f : Subst → Ty × Ty → Except Fail Subst}
    (hf : ∀ pr ∈ pairs, ∀ s, Closed arity s → Shallow arity (f s pr)) (hs : Closed arity s) :
    Shallow arity (pairs.foldlM f s) := by
  induction pairs generalizing s with
  | nil => exact .ok hs
  | cons pr pairs ih =>
    rw [foldlM_cons]
    have hpr := hf pr mem_cons_self s hs
    generalize f s pr = result at hpr
    cases hpr with
    | ok h => exact ih (fun p hp => hf p (mem_cons_of_mem pr hp)) h
    | apart => exact .apart

/-- A type is followed at once where all that is bound is closed. -/
theorem follow_closed (hs : Closed arity s) (fuel : Nat) (t : Ty) :
    ∃ t', follow s (fuel + 2) t = .ok t' := by
  cases t with
  | node shape parts => exact ⟨_, rfl⟩
  | var v =>
    rw [follow]
    cases hv : s.lookup v with
    | none => exact ⟨_, rfl⟩
    | some next =>
      have hn := (hs v next hv).2
      cases next with
      | var w => simp [freeVarsIn] at hn
      | node shape parts => exact ⟨_, rfl⟩

/-- The depth is enough for a closed type. -/
theorem probeUnify_shallow (ha : Plain arity a) (hb : Plain arity b) (hs : Closed arity s)
    (hca : freeVarsIn a = []) (hf : a.size < fuel) : Shallow arity (probeUnify fuel a b s) := by
  induction fuel generalizing a b s with
  | zero => omega
  | succ fuel ih =>
    cases a with
    | var v => simp [freeVarsIn] at hca
    | node f xs =>
      -- a type has a size, so there is depth to follow a variable once
      obtain ⟨depth, rfl⟩ : ∃ depth, fuel = depth + 1 := ⟨fuel - 1, by rw [Ty.size] at hf; omega⟩
      have hfa : follow s (depth + 2) (.node f xs) = .ok (.node f xs) := rfl
      obtain ⟨b', hfb⟩ := follow_closed hs depth b
      have hpb := (follow_spec hs.plainSubst hb hfb).1
      rw [probeUnify_plain hfa hfb ha hpb]
      cases b' with
      | var y =>
        have hno : occurs s y (depth + 1) (.node f xs) = .ok false := by
          rw [occurs, hca]
          rfl
        rw [probePlain, bindVar, hno]
        exact .ok (hs.cons y ha hca)
      | node g ys =>
        rw [probePlain]
        split_ifs with hp hsm
        · cases ha with
          | node hft hxs =>
            cases hpb with
            | node hft' hys =>
              refine foldlM_shallow (fun pr hpr s hs => ?_) hs
              have hm := of_mem_zip hpr
              refine ih (hxs pr.1 hm.1) (hys pr.2 hm.2) hs ?_ ?_
              · rw [freeVarsIn] at hca
                exact closed_part hca hm.1
              · have hlt := size_lt_of_mem f hm.1
                omega
        · exact .ok hs
        · exact .apart

/-- Closed types are unified with those that have them as an instance. -/
theorem couldUnify_closed {a b : List Ty} (ha : ∀ t ∈ a, Plain arity t)
    (hb : ∀ t ∈ b, Plain arity t) (hca : freeVarsInAll a = []) (h : a.length = b.length) :
    (couldUnify (depthOf a) a b).toBool = true ↔ ∃ θ, b.map (apply θ) = a := by
  have hsh : Shallow arity (couldUnify (depthOf a) a b) := by
    rw [couldUnify, if_pos h]
    refine foldlM_shallow (fun pr hp s hs => ?_) (closed_nil arity)
    have hmm := of_mem_zip hp
    refine probeUnify_shallow (ha pr.1 hmm.1) (hb pr.2 hmm.2) hs (closed_part hca hmm.1) ?_
    have hle := size_le_sizes hmm.1
    rw [depthOf]
    omega
  have hi : ∀ θ, Unifies θ (a.zip b) ↔ b.map (apply θ) = a := by
    intro θ
    rw [← map_apply_eq_iff_zip θ h, map_apply_closed θ hca, eq_comm]
  have hsl := couldUnify_solves (depthOf a) ha hb h
  generalize couldUnify (depthOf a) a b = result at hsh hsl
  cases hsl with
  | ok hpl hm =>
    cases hsh with
    | ok hc =>
      obtain ⟨θ, hθ⟩ := hc.exists_respects
      exact ⟨fun _ => ⟨θ, (hi θ).mp ((hm θ).mp hθ).2⟩, fun _ => rfl⟩
  | apart hn =>
    refine ⟨nofun, ?_⟩
    rintro ⟨θ, hθ⟩
    exact absurd ((hi θ).mpr hθ) (hn θ (respects_nil θ))
  | deep => cases hsh

theorem couldUnify_singleton (fuel : Nat) (a b : Ty) :
    couldUnify fuel [a] [b] = probeUnify fuel a b [] := by
  have hl : [a].length = [b].length := rfl
  exact bind_pure _

end Silt.Impls
