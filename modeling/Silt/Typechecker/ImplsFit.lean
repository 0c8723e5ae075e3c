import Silt.Typechecker.ProbeUnify

/-!
# Which impls fit a use

A use is for an impl if one substitution makes the impl's trait arguments the use's and the impl's
type the use's subject.  The check accepts impls of which no use is for two.  `implsFitting` looks
at the trait arguments and the type apart, and does not look at the type of an impl whose type has a
variable of its own for each argument.  So it finds the impls that a use is for where the two looks
agree.

## Main definitions

* `ArgsMatch`, `SelfMatches`, `IsFor` : the use is an instance of the impl's trait arguments, of its
  type, and of both together.
* `Agrees` : the trait arguments and the type of the impl say the same of the use.

## Main results

* `filter_candidates` : the index leaves out impls that do not fit only.
* `isFor_unique` : no use is for two of the impls that are accepted.
* `implsFitting_iff_agrees` : the impls that fit are those the use is for, and at most one, if and
  only if all impls agree with the use.
-/

namespace Silt.Impls

open Silt.Types

variable {use : Use arity n head} {impl : Impl arity n head} {shape : Shape}

variable {arity : TypeRef → Nat} {n : Nat} {head : TypeRef}

/-- The substitution makes the impl's trait arguments the use's. -/
def ArgsMatch (use : Use arity n head) (impl : Impl arity n head) (θ : TyVar → Ty) : Prop :=
  impl.args.map (apply θ) = use.args

/-- The substitution makes the impl's type the subject. -/
def SelfMatches (use : Use arity n head) (impl : Impl arity n head) (θ : TyVar → Ty) : Prop :=
  apply θ impl.self = use.subject

/-- The use is an instance of the impl: one substitution for the trait arguments and the type. -/
def IsFor (use : Use arity n head) (impl : Impl arity n head) : Prop :=
  ∃ θ, ArgsMatch use impl θ ∧ SelfMatches use impl θ

/-- The trait arguments of the impl and its type say the same of the use: an impl for all functions
is for those with the subject's number of parameters, and a variable of the trait arguments that is
in the type is one type in both. -/
def Agrees (use : Use arity n head) (impl : Impl arity n head) : Prop :=
  ∀ θ, ArgsMatch use impl θ →
    (isInstance impl.self = false → ∀ params params',
      impl.self = .node .fn params → use.subject = .node .fn params' →
        params.length = params'.length) ∧
    ∀ θ', SelfMatches use impl θ' →
      ∀ v ∈ freeVarsInAll impl.args, v ∈ freeVarsIn impl.self → θ v = θ' v

/-! ### At most one -/

/-- Two substitutions are one where no variable is in both types. -/
def merged (vars : List TyVar) (θ θ' : TyVar → Ty) (v : TyVar) : Ty :=
  if v ∈ vars then θ v else θ' v

theorem map_apply_congr {θ θ' : TyVar → Ty} {ts : List Ty}
    (h : ∀ v ∈ freeVarsInAll ts, θ v = θ' v) : ts.map (apply θ) = ts.map (apply θ') :=
  List.map_congr_left fun t ht => apply_congr fun v hv => h v (mem_freeVarsInAll.mpr ⟨t, ht, hv⟩)

theorem Impl.plain_full (impl : Impl arity n head) : ∀ t ∈ impl.full, Plain arity t := by
  intro t ht
  rcases List.mem_append.mp ht with ht | ht
  · exact impl.plain_args t ht
  · rw [List.mem_singleton.mp ht]
    exact impl.plain_self

theorem Impl.length_full (impl : Impl arity n head) : impl.full.length = n + 1 := by
  rw [Impl.full, List.length_append, impl.length_args, List.length_singleton]

theorem isFor_iff_full :
    IsFor use impl ↔ ∃ θ, impl.full.map (apply θ) = use.args ++ [use.subject] := by
  refine exists_congr fun θ => ?_
  rw [Impl.full, List.map_append, List.map_singleton]
  constructor
  · rintro ⟨ha, hs⟩
    rw [ha, hs]
  · intro h
    obtain ⟨ha, hs⟩ := List.append_inj h (by
      rw [List.length_map, impl.length_args, use.length_args])
    exact ⟨ha, List.singleton_inj.mp hs⟩

/-- No use is for two impls of which the second was accepted after the first. -/
theorem isFor_unique {use : Use arity n head} {er later : Impl arity n head}
    (hf : ∀ v ∈ er.vars, v ∉ later.vars) {fuel : Nat}
    (ha : couldUnify fuel later.full er.full = .error .apart)
    (he : IsFor use er) : ¬ IsFor use later := by
  intro hl
  obtain ⟨θ, hθ⟩ := isFor_iff_full.mp he
  obtain ⟨θ', hθ'⟩ := isFor_iff_full.mp hl
  have hln : later.full.length = er.full.length := by
    rw [later.length_full, er.length_full]
  have hs := couldUnify_solves fuel later.plain_full er.plain_full hln
  rw [ha] at hs
  cases hs with
  | apart hn =>
    refine hn (merged er.vars θ θ') (respects_nil _) ((map_apply_eq_iff_zip _ hln).mp ?_)
    have hfr : er.full.map (apply (merged er.vars θ θ')) = er.full.map (apply θ) :=
      map_apply_congr fun v hv => if_pos hv
    have hsc : later.full.map (apply (merged er.vars θ θ')) = later.full.map (apply θ') :=
      map_apply_congr fun v hv => if_neg fun hm => hf v hm hv
    rw [hfr, hsc, hθ, hθ']

/-! ### The index -/

theorem mergeSort_filter_append (l : List Nat) (hl : l.Pairwise (· < ·)) (p q : Nat → Bool)
    (hpq : ∀ i ∈ l, p i = true → q i = false) :
    (l.filter p ++ l.filter q).mergeSort = l.filter fun i => p i || q i := by
  have hpr : (l.filter p ++ l.filter q).Perm (l.filter fun i => p i || q i) := by
    have hs := List.filter_append_perm p (l.filter fun i => p i || q i)
    rw [List.filter_filter, List.filter_filter] at hs
    have hf : l.filter (fun i => p i && (p i || q i)) = l.filter p :=
      List.filter_congr fun i _ => by cases p i <;> rfl
    have hsc : l.filter (fun i => !p i && (p i || q i)) = l.filter q := by
      refine List.filter_congr fun i hi => ?_
      cases hp : p i with
      | false => rfl
      | true => rw [hpq i hi hp]; rfl
    rwa [hf, hsc] at hs
  have hsr : (l.filter p ++ l.filter q).mergeSort.Pairwise (· ≤ ·) :=
    List.pairwise_mergeSort' (· ≤ ·) _
  have hfl : (l.filter fun i => p i || q i).Pairwise (· ≤ ·) := (hl.filter _).imp le_of_lt
  exact ((List.mergeSort_perm _ _).trans hpr).eq_of_pairwise
    (fun a b _ _ => Nat.le_antisymm) hsr hfl

theorem filterMap_range_filter {α : Type} (l : List α) (p : α → Bool) :
    (((List.range l.length).filter fun i => (l[i]?).any p).filterMap fun i => l[i]?) =
      l.filter p := by
  induction l with
  | nil => rfl
  | cons a l ih =>
    rw [List.length_cons, List.range_succ_eq_map, List.filter_cons, List.filter_map]
    simp only [List.getElem?_cons_zero, Option.any_some, List.filter_cons]
    have hr : (List.range l.length).filter ((fun i => ((a :: l)[i]?).any p) ∘ Nat.succ) =
        (List.range l.length).filter fun i => (l[i]?).any p := by
      refine List.filter_congr fun i _ => ?_
      simp
    grind

/-- An impl that is found apart by its outer types has no use's arguments as an instance. -/
theorem outerHead_apply (θ : TyVar → Ty) {t : Ty} {h : OuterHead} (ht : outerHead t = some h) :
    outerHead (apply θ t) = some h := by
  cases t with
  | var v => simp [outerHead] at ht
  | node shape parts =>
    cases shape <;> simp_all [outerHead]

theorem headsApart_apply (θ : TyVar → Ty) (t : Ty) : headsApart (apply θ t) t = false := by
  rw [headsApart]
  cases ht : outerHead t with
  | none => cases outerHead (apply θ t) <;> rfl
  | some h =>
    rw [outerHead_apply θ ht]
    simp

theorem argsFit_iff : argsFit use.args impl = true ↔ ∃ θ, ArgsMatch use impl θ := by
  have hl : use.args.length = impl.args.length := by rw [use.length_args, impl.length_args]
  rw [argsFit]
  cases ha : impl.args with
  | nil =>
    have hn : use.args = [] := List.eq_nil_of_length_eq_zero (by rw [hl, ha]; rfl)
    have hs : ∃ θ, ArgsMatch use impl θ := ⟨Ty.var, by rw [ArgsMatch, ha, hn]; rfl⟩
    exact ⟨fun _ => hs, fun _ => rfl⟩
  | cons arg args =>
    rw [← ha]
    have hne : impl.args.isEmpty = false := by rw [ha]; rfl
    rw [hne, Bool.false_or, Bool.and_eq_true,
      couldUnify_closed use.plain_args impl.plain_args use.closed_args hl]
    refine ⟨fun h => h.2, fun h => ⟨?_, h⟩⟩
    obtain ⟨θ, hθ⟩ := h
    have hz : use.args.zip impl.args = impl.args.map fun t => (apply θ t, t) := by
      have hm : (impl.args.map (apply θ)).zip (impl.args.map id) = _ := List.zip_map'
      rw [List.map_id] at hm
      rw [← hθ]
      exact hm
    rw [Bool.not_eq_true', hz, List.any_map, List.any_eq_false]
    simp [headsApart_apply]

/-- Only impls that do not fit are left out before. -/
theorem first_of_argsFit {first : OuterHead} (h : argsFit use.args impl = true)
    (hf : use.args.head?.bind outerHead = some first) :
    impl.first = some first ∨ impl.first = none := by
  obtain ⟨θ, hθ⟩ := argsFit_iff.mp h
  cases har : impl.args with
  | nil => exact Or.inr (by rw [Impl.first, har]; rfl)
  | cons arg args =>
    rw [ArgsMatch, har, List.map_cons] at hθ
    rw [← hθ] at hf
    have ha : outerHead (apply θ arg) = some first := hf
    have ho : impl.first = outerHead arg := by rw [Impl.first, har]; rfl
    rw [ho]
    cases hag : outerHead arg with
    | none => exact Or.inr rfl
    | some h =>
      rw [outerHead_apply θ hag] at ha
      exact Or.inl ha

theorem filter_candidates (im : List (Impl arity n head)) (use : Use arity n head) :
    ((candidates im use.args).filterMap fun i => im[i]?).filter (argsFit use.args) =
      im.filter (argsFit use.args) := by
  rw [candidates]
  cases hf : use.args.head?.bind outerHead with
  | none =>
    have ha := filterMap_range_filter im fun _ => true
    have hr : (List.range im.length).filter (fun i => (im[i]?).any fun _ => true) =
        List.range im.length := by
      simp_all
    rw [hr, List.filter_eq_self.mpr (fun _ _ => rfl)] at ha
    simp only [ha]
  | some first =>
    have hm : (byFirst im (some first) ++ byFirst im none).mergeSort =
        (List.range im.length).filter fun i =>
          (im[i]?).any fun impl => impl.first = some first ∨ impl.first = none := by
      rw [byFirst, byFirst, mergeSort_filter_append _ List.pairwise_lt_range]
      · grind
      · intro i hi hs
        simp_all
    simp only [hm]
    rw [filterMap_range_filter, List.filter_filter]
    refine List.filter_congr fun impl _ => ?_
    cases hft : argsFit use.args impl with
    | false => rfl
    | true => simpa using first_of_argsFit hft hf

/-! ### The type an impl is for -/

/-- The shape of the types a name is at the head of. -/
def shapeOf (name : TypeRef) : Shape :=
  match name with
  | .builtin "Int" => .int
  | .builtin "Float" => .float
  | .builtin "Bool" => .bool
  | .builtin "String" => .string
  | .builtin "Unit" => .unit
  | .builtin "List" => .list
  | .builtin "Set" => .set
  | .builtin "Channel" => .channel
  | .builtin "Map" => .map
  | .builtin "Tuple" => .tuple
  | .builtin "Fn" => .fn
  | name => .generic name

theorem shapeOf_generic {name : TypeRef} (h : ownShape name = false) :
    shapeOf name = .generic name := by
  rw [shapeOf] <;>
    · rintro rfl
      simp [ownShape] at h

/-- A plain type has the shape of the name at its head. -/
theorem shape_of_head {parts : List Ty} (h : Plain arity (.node shape parts))
    (hh : (Ty.node shape parts).headOfCanon = some head) : shape = shapeOf head := by
  cases h with
  | node hf _ =>
    cases shape <;> first
      | exact hf.elim
      | (rw [← Option.some_inj.mp hh]; rfl)
      | (rw [← Option.some_inj.mp hh]; exact (shapeOf_generic hf.2).symm)

/-- Plain types of one shape have the same number of parts, tuples and functions aside. -/
theorem PartsFit.length_eq {m k : Nat} (hm : PartsFit arity shape m) (hk : PartsFit arity shape k)
    (ht : shape ≠ .tuple) (hfn : shape ≠ .fn) : m = k := by
  cases shape <;> simp_all [PartsFit]

theorem typeArgsOf_plain {parts : List Ty} (h : PartsFit arity shape parts.length) :
    typeArgsOf (.node shape parts) = parts := by
  cases shape <;> simp_all [PartsFit, typeArgsOf]

/-- Variables of their own are any types, as many. -/
theorem exists_of_ownVars {seen : List TyVar} {ts us : List Ty} (h : ownVars seen ts = true)
    (hl : ts.length = us.length) (θ₀ : TyVar → Ty) :
    ∃ θ, (∀ v ∈ seen, θ v = θ₀ v) ∧ ts.map (apply θ) = us := by
  induction ts generalizing seen us θ₀ with
  | nil => exact ⟨θ₀, fun _ _ => rfl, (List.eq_nil_of_length_eq_zero hl.symm).symm⟩
  | cons t ts ih =>
    cases us with
    | nil => simp at hl
    | cons u us =>
      cases t with
      | node shape parts => simp [ownVars] at h
      | var v =>
        rw [ownVars, Bool.and_eq_true, decide_eq_true_iff] at h
        obtain ⟨θ, hs, hm⟩ := ih h.2 (Nat.succ.inj hl) (Function.update θ₀ v u)
        refine ⟨θ, fun w hw => ?_, ?_⟩
        · grind
        simp_all

/-- An impl for all instantiations of its type is for the subject, if that is not a function of
another number of parameters. -/
theorem exists_selfMatches (use : Use arity n head) (impl : Impl arity n head)
    (ha : isInstance impl.self = false)
    (hfn : ∀ ps ps', impl.self = .node .fn ps → use.subject = .node .fn ps' →
      ps.length = ps'.length) : ∃ θ, SelfMatches use impl θ := by
  have hp := impl.plain_self
  have hp' := use.plain_subject
  have hh' := use.head_subject
  unfold SelfMatches
  rcases impl.head_self with hh | ⟨v, hv⟩
  · generalize impl.self = self at *
    generalize use.subject = subject at *
    cases self with
    | var v => simp [Ty.headOfCanon] at hh
    | node shape parts =>
      cases subject with
      | var v => simp [Ty.headOfCanon] at hh'
      | node shape' parts' =>
        have hs : shape = shape' := (shape_of_head hp hh).trans (shape_of_head hp' hh').symm
        subst hs
        cases hp with
        | node hf _ =>
          cases hp' with
          | node hf' _ =>
            have ht : shape ≠ .tuple := by
              rintro rfl
              simp [isInstance] at ha
            have hl : parts.length = parts'.length := by
              by_cases hs : shape = .fn
              · subst hs
                exact hfn parts parts' rfl rfl
              · exact hf.length_eq hf' ht hs
            have ho : ownVars [] parts = true := by
              rw [isInstance, typeArgsOf_plain hf] at ha
              · simpa using ha
              · rintro h _ ⟨rfl, -⟩
                exact hf.elim
              · rintro _ ⟨rfl, -⟩
                exact ht rfl
            obtain ⟨θ, -, hm⟩ := exists_of_ownVars ho hl Ty.var
            exact ⟨θ, by rw [apply_node, hm]⟩
  · exact ⟨fun _ => use.subject, by rw [hv, apply_var]⟩

theorem forSubject_iff :
    forSubject use.subject impl = true ↔
      isInstance impl.self = false ∨ ∃ θ, SelfMatches use impl θ := by
  have hc : freeVarsInAll [use.subject] = [] := by
    rw [freeVarsInAll, freeVarsInAll, use.closed_subject, List.append_nil]
  have hp : (probeUnify (depthOf [use.subject]) use.subject impl.self []).toBool = true ↔
      ∃ θ, SelfMatches use impl θ := by
    have hs : ∀ t ∈ [use.subject], Plain arity t := by simpa using use.plain_subject
    have hsl : ∀ t ∈ [impl.self], Plain arity t := by simpa using impl.plain_self
    rw [← couldUnify_singleton, couldUnify_closed hs hsl hc rfl]
    simp [SelfMatches]
  rw [forSubject, Bool.or_eq_true, Bool.not_eq_true', hp]

/-! ### The impls that fit -/

theorem implsFitting_eq (im : List (Impl arity n head)) (use : Use arity n head) :
    implsFitting im use.subject use.args =
      im.filter fun impl => argsFit use.args impl && forSubject use.subject impl := by
  rw [implsFitting]
  split_ifs with ha
  · refine List.filter_congr fun impl _ => ?_
    have hn : impl.args = [] := by
      refine List.eq_nil_of_length_eq_zero ?_
      rw [impl.length_args, ← use.length_args, ha]
      rfl
    rw [argsFit, hn]
    rfl
  · rw [filter_candidates, List.filter_filter]
    exact List.filter_congr fun impl _ => Bool.and_comm _ _

/-- A use is for an impl if its trait arguments and its type match, and agree on the variables in
both. -/
theorem isFor_of_agree {θ θ' : TyVar → Ty} (ha : ArgsMatch use impl θ)
    (hs : SelfMatches use impl θ')
    (h : ∀ v ∈ freeVarsInAll impl.args, v ∈ freeVarsIn impl.self → θ v = θ' v) :
    IsFor use impl := by
  refine ⟨merged (freeVarsInAll impl.args) θ θ', ?_, ?_⟩
  · rw [ArgsMatch, ← ha]
    exact map_apply_congr fun v hv => if_pos hv
  · rw [SelfMatches, ← hs]
    refine apply_congr fun v hv => ?_
    rw [merged]
    split_ifs with hm
    · exact h v hm hv
    · rfl

theorem fits_of_isFor (h : IsFor use impl) :
    (argsFit use.args impl && forSubject use.subject impl) = true := by
  obtain ⟨θ, ha, hs⟩ := h
  rw [Bool.and_eq_true]
  exact ⟨argsFit_iff.mpr ⟨θ, ha⟩, forSubject_iff.mpr (Or.inr ⟨θ, hs⟩)⟩

/-- The use is for an impl that fits if and only if the impl agrees with the use. -/
theorem fits_imp_isFor_iff :
    ((argsFit use.args impl && forSubject use.subject impl) = true → IsFor use impl) ↔
      Agrees use impl := by
  rw [Bool.and_eq_true, argsFit_iff, forSubject_iff]
  constructor
  · intro hf θ hθ
    refine ⟨fun hal ps ps' hsl hsb => ?_, fun θ' hθ' v hv hv' => ?_⟩
    · obtain ⟨σ, -, hσ⟩ := hf ⟨⟨θ, hθ⟩, Or.inl hal⟩
      rw [SelfMatches, hsl, hsb, apply_node] at hσ
      grind
    · obtain ⟨σ, hσ, hσ'⟩ := hf ⟨⟨θ, hθ⟩, Or.inr ⟨θ', hθ'⟩⟩
      obtain ⟨t, ht, hvt⟩ := mem_freeVarsInAll.mp hv
      have har : apply θ t = apply σ t := List.map_inj_left.mp (hθ.trans hσ.symm) t ht
      exact (eq_of_apply_eq har hvt).trans (eq_of_apply_eq (hσ'.trans hθ'.symm) hv')
  · rintro ha ⟨⟨θ, hθ⟩, hsl⟩
    obtain ⟨hfn, hs⟩ := ha θ hθ
    have hm : ∃ θ', SelfMatches use impl θ' := by
      rcases hsl with hal | hm
      · exact exists_selfMatches use impl hal (hfn hal)
      · exact hm
    obtain ⟨θ', hθ'⟩ := hm
    exact isFor_of_agree hθ hθ' (hs θ' hθ')

/-- At most one element of a list has a property that excludes itself later in the list. -/
theorem length_filter_le_one {α : Type} {l : List α} {p : α → Bool}
    (h : l.Pairwise fun a b => p a = true → p b = false) : (l.filter p).length ≤ 1 := by
  induction h with
  | nil => exact Nat.zero_le 1
  | @cons a l hh _ ih =>
    rw [List.filter_cons]
    split_ifs with ha
    · simp_all
    · exact ih

open scoped Classical in
/-- The impls that fit are those the use is for, in order, at most one of them, and the use reaches
it, if and only if all impls agree with the use. -/
theorem implsFitting_iff_agrees {Key : Type} {key : Impl arity n head → Key} (impls : Accepted key)
    (use : Use arity n head) :
    (implsFitting impls.list use.subject use.args = impls.list.filter (fun impl => IsFor use impl) ∧
      (implsFitting impls.list use.subject use.args).length ≤ 1 ∧
      ∀ impl ∈ impls.list, IsFor use impl →
        implReached impls.list use.subject use.args = some impl) ↔
      ∀ impl ∈ impls.list, Agrees use impl := by
  have hft : implsFitting impls.list use.subject use.args =
      impls.list.filter (fun impl => IsFor use impl) ↔ ∀ impl ∈ impls.list, Agrees use impl := by
    rw [implsFitting_eq]
    constructor
    · intro heq impl hi
      refine fits_imp_isFor_iff.mp fun hfi => ?_
      have hm : impl ∈ impls.list.filter (fun impl => IsFor use impl) := by
        rw [← heq]
        exact List.mem_filter.mpr ⟨hi, hfi⟩
      exact of_decide_eq_true (List.mem_filter.mp hm).2
    · intro ha
      refine List.filter_congr fun impl hi => ?_
      rw [Bool.eq_iff_iff, decide_eq_true_iff]
      exact ⟨fits_imp_isFor_iff.mpr (ha impl hi), fits_of_isFor⟩
  rw [← hft]
  refine ⟨fun h => h.1, fun heq => ?_⟩
  have hon : (implsFitting impls.list use.subject use.args).length ≤ 1 := by
    rw [heq]
    refine length_filter_le_one ?_
    refine (impls.fresh.and impls.accepted).imp ?_
    rintro earlier later ⟨hf, -, fuel, hap⟩ he
    exact decide_eq_false (isFor_unique hf hap (of_decide_eq_true he))
  refine ⟨heq, hon, fun impl hi hfr => ?_⟩
  have hm : impl ∈ implsFitting impls.list use.subject use.args := by
    rw [heq]
    exact List.mem_filter.mpr ⟨hi, decide_eq_true hfr⟩
  obtain ⟨only, ho⟩ : ∃ only, implsFitting impls.list use.subject use.args = [only] := by
    refine List.length_eq_one_iff.mp (Nat.le_antisymm hon ?_)
    exact List.length_pos_of_mem hm
  rw [ho, List.mem_singleton] at hm
  rw [implReached, ho, hm]

/-- No use is for two of the impls that are accepted.  The impl that a use is for is among those
that fit, and where the use reaches an impl, it is that one. -/
theorem impls_coherent {Key : Type} {key : Impl arity n head → Key} (impls : Accepted key)
    (use : Use arity n head) :
    impls.list.Pairwise (fun earlier later => ¬ (IsFor use earlier ∧ IsFor use later)) ∧
    ∀ impl ∈ impls.list, IsFor use impl →
      impl ∈ implsFitting impls.list use.subject use.args ∧
      ∀ reached, implReached impls.list use.subject use.args = some reached → reached = impl := by
  refine ⟨(impls.fresh.and impls.accepted).imp ?_, fun impl hi hf => ?_⟩
  · rintro earlier later ⟨hf, -, fuel, ha⟩ ⟨he, hl⟩
    exact isFor_unique hf ha he hl
  · have hm : impl ∈ implsFitting impls.list use.subject use.args := by
      rw [implsFitting_eq]
      exact List.mem_filter.mpr ⟨hi, fits_of_isFor hf⟩
    refine ⟨hm, fun reached hr => ?_⟩
    rw [implReached] at hr
    grind

/-! ### A variable in the trait arguments and the type -/

section Wrap

/-- The type `B(a)`. -/
private def boxed (t : Ty) : Ty :=
  .node (.generic (.user 0)) [t]

private theorem plain_boxed {t : Ty} (h : Plain (fun _ => 1) t) : Plain (fun _ => 1) (boxed t) :=
  .node ⟨rfl, rfl⟩ (by simpa using h)

private theorem plain_prim (shape : Shape) (h : PartsFit (fun _ => 1) shape 0) :
    Plain (fun _ => 1) (.node shape []) :=
  .node h nofun

/-- `trait Wrap(x) for B(x)`. -/
def wrapAny : Impl (fun _ => 1) 1 (.user 0) where
  args := [.var 0]
  self := boxed (.var 0)
  length_args := rfl
  plain_args := by simpa using Plain.var 0
  plain_self := plain_boxed (.var 0)
  head_self := Or.inl rfl

/-- `trait Wrap(String) for B(Int)`. -/
def wrapString : Impl (fun _ => 1) 1 (.user 0) where
  args := [.node .string []]
  self := boxed (.node .int [])
  length_args := rfl
  plain_args := by simpa using plain_prim .string rfl
  plain_self := plain_boxed (plain_prim .int rfl)
  head_self := Or.inl rfl

/-- Both are accepted: `Wrap(x)` for `B(x)` is never `Wrap(String)` for `B(Int)`. -/
def wraps : Accepted (@Impl.full (fun _ => 1) 1 (.user 0)) where
  list := [wrapAny, wrapString]
  fresh := by
    refine List.pairwise_pair.mpr fun v _ hv => ?_
    simp [Impl.vars, Impl.full, wrapString, boxed, freeVarsInAll, freeVarsIn] at hv
  accepted := List.pairwise_pair.mpr ⟨by decide, 4, rfl⟩

/-- A use of `Wrap(String)` on a `B(Int)`. -/
def wrapUse : Use (fun _ => 1) 1 (.user 0) where
  args := [.node .string []]
  subject := boxed (.node .int [])
  length_args := rfl
  plain_args := by simpa using plain_prim .string rfl
  plain_subject := plain_boxed (plain_prim .int rfl)
  closed_args := rfl
  closed_subject := rfl
  head_subject := rfl

/-- The use is for the second impl and not for the first, but both fit, and it reaches none. -/
theorem implsFitting_wrapUse :
    implsFitting wraps.list wrapUse.subject wrapUse.args = [wrapAny, wrapString] ∧
      IsFor wrapUse wrapString ∧ ¬ IsFor wrapUse wrapAny ∧
      implReached wraps.list wrapUse.subject wrapUse.args = none := by
  have hf : implsFitting wraps.list wrapUse.subject wrapUse.args = [wrapAny, wrapString] := by
    rw [implsFitting_eq]
    rfl
  refine ⟨hf, ⟨Ty.var, rfl, rfl⟩, ?_, ?_⟩
  · rintro ⟨θ, ha, hsl⟩
    have hst : θ 0 = .node .string [] := by simpa [ArgsMatch, wrapAny, wrapUse] using ha
    have hi : θ 0 = .node .int [] := by
      simpa [SelfMatches, wrapAny, wrapUse, boxed] using hsl
    rw [hst] at hi
    injection hi with hs
    cases hs
  · rw [implReached, hf]

end Wrap

end Silt.Impls
