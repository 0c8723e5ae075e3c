import Silt.Lib.Elementwise
import Silt.Typechecker.Search

/-!
# What the rows of a matrix match

The search works on rows of patterns. This file says which rows of values a row matches, and that
the search's ways to take a matrix apart keep that: an or-pattern matches what its alternatives
match, and a row matches a value built with a constructor when the specialised row matches the
parts.

## Main results

* `Silt.Typechecker.matches_alternatives`: the alternatives of a pattern.
* `Silt.Typechecker.specializeFirst_spec`: the specialised pattern.
* `Silt.Typechecker.exists_of_parts`: every row of parts is that of a value.
-/

namespace Silt.Typechecker

open List Option Bool

/-! ### Rows of values -/

section Rows

variable {values parts : List Value} {tys : List Ty} {α β : Type} {column : Nat} {a : α}
  {R : α → β → Prop} {as : List α} {bs : List β} {names given : List Symbol} {name : Symbol}
  {value : Value} {ty : Ty} {id ctor : CtorId} {args : List Pat} {first : Place}
  {fields : List (Symbol × Ty)}

variable {tables : Tables} {roots : List Pat}

theorem matchesAll_iff {pats : List Pat} :
    matchesAll pats values = true ↔
      List.Forall₂ (fun pat value => pat.matches value = true) pats values := by
  induction pats generalizing values with
  | nil => cases values <;> simp [matchesAll]
  | cons pat pats ih => cases values <;> simp [matchesAll, ih]

theorem describesAll_iff {witnesses : List Witness} :
    describesAll witnesses values = true ↔
      List.Forall₂ (fun witness value => witness.describes value = true) witnesses values := by
  induction witnesses generalizing values with
  | nil => cases values <;> simp [describesAll]
  | cons witness witnesses ih => cases values <;> simp [describesAll, ih]

theorem valuesHaveTypes_iff :
    valuesHaveTypes tables values tys = true ↔
      List.Forall₂ (fun value ty => value.hasType tables ty = true) values tys := by
  induction values generalizing tys with
  | nil => cases tys <;> simp [valuesHaveTypes]
  | cons value values ih => cases tys <;> simp [valuesHaveTypes, ih]

theorem patsHaveTypes_iff {pats : List Pat} :
    patsHaveTypes tables pats tys = true ↔
      List.Forall₂ (fun pat ty => pat.hasType tables ty = true) pats tys := by
  induction pats generalizing tys with
  | nil => cases tys <;> simp [patsHaveTypes]
  | cons pat pats ih => cases tys <;> simp [patsHaveTypes, ih]

/-- The row matches the values. -/
def RowMatches (roots : List Pat) (row : Row) (values : List Value) : Prop :=
  List.Forall₂ (fun place value => (place.deref roots).matches value = true) row values

/-- The patterns of the row are of the types. -/
def RowTyped (tables : Tables) (roots : List Pat) (row : Row) (tys : List Ty) : Prop :=
  List.Forall₂ (fun place ty => (place.deref roots).hasType tables ty = true) row tys

/-- The values are of the types. -/
def ValuesTyped (tables : Tables) (tys : List Ty) : Set (List Value) :=
  {values | List.Forall₂ (fun value ty => value.hasType tables ty = true) values tys}

/-- The values that some row matches. -/
def Matched (roots : List Pat) (rows : List Row) : Set (List Value) :=
  {values | ∃ row ∈ rows, RowMatches roots row values}

/-- The values that the witnesses stand for. -/
def Described (witnesses : List Witness) : Set (List Value) :=
  {values | List.Forall₂ (fun witness value => witness.describes value = true) witnesses values}

theorem matches_of_coversNothing {pat : Pat} (h : coversNothing pat = true) (value : Value) :
    pat.matches value = false := by
  cases pat with
  | wild | ctor => cases h
  | lit => rfl
  | or a =>
    obtain rfl : a = [] := isEmpty_iff.mp h
    rfl
  | intRange lo hi =>
    cases value with
    | int n =>
      have hlt : hi < lo := of_decide_eq_true h
      by_contra hm
      simp only [Pat.matches, not_eq_false, and_eq_true, decide_eq_true_eq] at hm
      grind
    | ctor | other => rfl

theorem isWild_iff {pat : Pat} : pat.isWild = true ↔ pat = .wild := by
  cases pat <;> simp [Pat.isWild]

theorem not_rowMatches_of_any {row : Row}
    (h : (row.any fun place => coversNothing (place.deref roots)) = true) :
    ¬RowMatches roots row values := by
  intro hrw
  induction hrw with
  | nil => cases h
  | @cons place value row values hm hrw ih =>
    rw [any_cons, or_eq_true] at h
    rcases h with hp | hr
    · rw [matches_of_coversNothing hp] at hm
      cases hm
    · exact ih hr

mutual

theorem matches_alternatives (pat : Pat) (place : Place) (hp : place.deref roots = pat)
    (value : Value) :
    pat.matches value = true ↔
      ∃ alt ∈ alternatives pat place, (alt.deref roots).matches value = true := by
  cases pat with
  | or a =>
    rw [alternatives, Pat.matches]
    refine matches_alternativesFrom a place 0 (fun j => ?_) value
    rw [Place.deref_child, hp, Nat.zero_add]
    rfl
  | wild | ctor | lit | intRange => simp [alternatives, hp]

theorem matches_alternativesFrom (a : List Pat) (place : Place) (i : Nat)
    (hp : ∀ j, (place.child (i + j)).deref roots = a.getD j .wild) (value : Value) :
    matchesAny a value = true ↔
      ∃ alt ∈ alternativesFrom a place i, (alt.deref roots).matches value = true := by
  cases a with
  | nil => simp [matchesAny, alternativesFrom]
  | cons alt a =>
    have hf := matches_alternatives alt (place.child i) (hp 0) value
    have hr := matches_alternativesFrom a place (i + 1) (fun j => by
        simpa only [Nat.add_assoc, Nat.add_comm 1, getD_cons_succ] using hp (j + 1)) value
    rw [matchesAny, or_eq_true, hf, hr, alternativesFrom]
    simp [or_and_right, exists_or]

end

mutual

/-- The alternatives of a pattern are of its type, and none is an or-pattern. -/
theorem alternatives_spec (pat : Pat) (place : Place) (hp : place.deref roots = pat) {alt : Place}
    (ha : alt ∈ alternatives pat place) :
    (∀ a, alt.deref roots ≠ .or a) ∧
      ∀ ty, pat.hasType tables ty = true → (alt.deref roots).hasType tables ty = true := by
  cases pat with
  | or a =>
    rw [alternatives] at ha
    obtain ⟨hn, ht⟩ := alternativesFrom_spec a place 0 (fun j => by
      rw [Place.deref_child, hp, Nat.zero_add]
      rfl) ha
    exact ⟨hn, fun ty hty => ht ty (by simpa only [Pat.hasType] using hty)⟩
  | wild | ctor | lit | intRange =>
    obtain rfl : alt = place := by simpa [alternatives] using ha
    rw [hp]
    exact ⟨by simp, fun ty hty => hty⟩

theorem alternativesFrom_spec (a : List Pat) (place : Place) (i : Nat)
    (hp : ∀ j, (place.child (i + j)).deref roots = a.getD j .wild) {alt : Place}
    (ha : alt ∈ alternativesFrom a place i) :
    (∀ a, alt.deref roots ≠ .or a) ∧
      ∀ ty, altsHaveType tables a ty = true → (alt.deref roots).hasType tables ty = true := by
  cases a with
  | nil => simp [alternativesFrom] at ha
  | cons first a =>
    rw [alternativesFrom, mem_append] at ha
    rcases ha with ha | ha
    · obtain ⟨hn, ht⟩ := alternatives_spec first (place.child i) (hp 0) ha
      refine ⟨hn, fun ty hty => ht ty ?_⟩
      rw [altsHaveType, and_eq_true] at hty
      exact hty.1
    · obtain ⟨hn, ht⟩ := alternativesFrom_spec a place (i + 1)
        (fun j => by simpa only [Nat.add_assoc, Nat.add_comm 1, getD_cons_succ] using hp (j + 1)) ha
      refine ⟨hn, fun ty hty => ht ty ?_⟩
      rw [altsHaveType, and_eq_true] at hty
      exact hty.2

end

/-! ### Exchanging columns -/

theorem length_swapFirst (column : Nat) (l : List α) : (swapFirst column l).length = l.length := by
  cases l with
  | nil => rfl
  | cons first rest => cases column <;> simp [swapFirst]

theorem swapFirst_swapFirst {l : List α} (h : column < l.length) :
    swapFirst column (swapFirst column l) = l := by
  cases l with
  | nil => rfl
  | cons first rest =>
    cases column with
    | zero => rfl
    | succ column =>
      have hlt : column < rest.length := by simpa using h
      simp [swapFirst, hlt]

theorem mem_of_mem_swapFirst {l : List α} (h : a ∈ swapFirst column l) : a ∈ l := by
  cases l with
  | nil => exact h
  | cons first rest =>
    cases column with
    | zero => exact h
    | succ column =>
      rw [swapFirst, mem_cons] at h
      grind

theorem forall₂_set {b : β} (h : List.Forall₂ R as bs) (hab : R a b) (i : Nat) :
    List.Forall₂ R (as.set i a) (bs.set i b) := by
  induction h generalizing i with
  | nil => exact .nil
  | cons hf hr ih =>
    cases i with
    | zero => exact .cons hab hr
    | succ i => exact .cons hf (ih i)

theorem forall₂_getD {b : β} (h : List.Forall₂ R as bs) (hab : R a b) (i : Nat) :
    R (as.getD i a) (bs.getD i b) := by
  induction h generalizing i with
  | nil => exact hab
  | cons hf hr ih =>
    cases i with
    | zero => exact hf
    | succ i => exact ih i

theorem forall₂_append_split {as' : List α} {bs' : List β} (hl : as.length = bs.length)
    (h : List.Forall₂ R (as ++ as') (bs ++ bs')) :
    List.Forall₂ R as bs ∧ List.Forall₂ R as' bs' := by
  have hf := forall₂_take_append _ _ _ h
  have hr := forall₂_drop_append _ _ _ h
  grind

theorem forall₂_swapFirst (h : List.Forall₂ R as bs) (column : Nat) :
    List.Forall₂ R (swapFirst column as) (swapFirst column bs) := by
  cases h with
  | nil => exact .nil
  | cons hf hr =>
    cases column with
    | zero => exact .cons hf hr
    | succ column => exact .cons (forall₂_getD hr hf column) (forall₂_set hr hf column)

theorem forall₂_swapFirst_iff (ha : column < as.length) (hb : column < bs.length) :
    List.Forall₂ R (swapFirst column as) (swapFirst column bs) ↔ List.Forall₂ R as bs := by
  refine ⟨fun h => ?_, fun h => forall₂_swapFirst h column⟩
  have hbc := forall₂_swapFirst h column
  rwa [swapFirst_swapFirst ha, swapFirst_swapFirst hb] at hbc

/-! ### Parts of a value and their types -/

theorem lookup_typed {typeOf : Symbol → Option Ty}
    (hn : List.Forall₂ (fun name ty => typeOf name = some ty) names tys)
    (hvl : List.Forall₂ (fun value ty => value.hasType tables ty = true) values tys)
    (hv : (names.zip values).lookup name = some value) (hty : typeOf name = some ty) :
    value.hasType tables ty = true := by
  induction hn generalizing values with
  | nil => simp at hv
  | @cons first firstTy names tys hf hn ih =>
    cases hvl with
    | @cons firstValue _ values _ ht hvl => grind

theorem hasType_ctor_iff {args : List Value} :
    (Value.ctor id args).hasType tables ty = true ↔
      tables.builds ty id = true ∧
        ∃ tys, tables.fieldTypes ty id = some tys ∧
          List.Forall₂ (fun value ty => value.hasType tables ty = true) args tys := by
  rw [Value.hasType, and_eq_true]
  cases tables.fieldTypes ty id with
  | none => simp
  | some tys => simp [valuesHaveTypes_iff]

theorem parts_ctor_of_ne {b : CtorId} {args : List Value}
    (h : ∀ given names, id = .record given → b ≠ .record names) :
    id.parts (.ctor b args) = if id = b then some args else none := by
  cases id with
  | record given =>
    cases b with
    | record names => exact absurd rfl (h given names rfl)
    | _ => rfl
  | _ => rfl

theorem parts_typed (hv : value.hasType tables ty = true)
    (ht : tables.fieldTypes ty id = some tys) (hp : id.parts value = some parts) :
    List.Forall₂ (fun value ty => value.hasType tables ty = true) parts tys := by
  cases value with
  | int | other => cases id <;> simp [CtorId.parts] at hp
  | ctor b args =>
    obtain ⟨-, tys', ht', ha⟩ := hasType_ctor_iff.mp hv
    by_cases hr : ∀ given names, id = .record given → b ≠ .record names
    · rw [parts_ctor_of_ne hr] at hp
      grind
    · push Not at hr
      obtain ⟨given, names, rfl, rfl⟩ := hr
      unfold Tables.fieldTypes at ht ht'
      cases hs : tables.shape ty with
      | record fields =>
        simp only [hs] at ht ht'
        rw [CtorId.parts, mapM_eq_some_iff] at hp
        rw [mapM_eq_some_iff] at ht ht'
        induction ht generalizing parts with
        | nil =>
          cases hp
          exact .nil
        | cons hty _ ih =>
          cases hp with
          | cons hpr hp => exact .cons (lookup_typed ht' ha hpr hty) (ih hp)
      | _ => simp [hs] at ht

/-! ### Specialised patterns -/

theorem hasType_pat_ctor_iff :
    (Pat.ctor id args).hasType tables ty = true ↔
      id.distinct = true ∧
        ∃ tys, tables.fieldTypes ty id = some tys ∧
          List.Forall₂ (fun pat ty => pat.hasType tables ty = true) args tys := by
  rw [Pat.hasType, and_eq_true]
  cases tables.fieldTypes ty id with
  | none => simp
  | some tys => simp [patsHaveTypes_iff]

theorem matches_ctor_iff :
    (Pat.ctor id args).matches value = true ↔
      ∃ parts, id.parts value = some parts ∧
        List.Forall₂ (fun pat value => pat.matches value = true) args parts := by
  rw [Pat.matches]
  cases id.parts value with
  | none => simp
  | some parts => simp [matchesAll_iff]

/-- A relation to the parts with the given names, name by name. -/
theorem forall₂_map_iff {R : α → Value → Prop} {partOf : Symbol → Option Value}
    (hp : List.Forall₂ (fun name part => partOf name = some part) names parts) (f : Symbol → α) :
    List.Forall₂ R (names.map f) parts ↔
      ∀ name ∈ names, ∀ part, partOf name = some part → R (f name) part := by
  induction hp with
  | nil => simp
  | @cons name part names parts hpr hp ih => simp_all

theorem exists_parts_iff {partOf : Symbol → Option β} :
    (∃ parts, List.Forall₂ (fun name part => partOf name = some part) names parts) ↔
      ∀ name ∈ names, ∃ part, partOf name = some part := by
  induction names with
  | nil => simp
  | cons name names ih =>
    rw [forall_mem_cons, ← ih]
    constructor
    · rintro ⟨_, _ | ⟨hpr, hp⟩⟩
      exact ⟨⟨_, hpr⟩, _, hp⟩
    · rintro ⟨⟨part, hpr⟩, parts, hp⟩
      exact ⟨part :: parts, .cons hpr hp⟩

theorem map_getD_idxOf (hnodup : names.Nodup) (hl : args.length = names.length) :
    names.map (fun name => args.getD (names.idxOf name) .wild) = args := by
  refine ext_getElem (by simp [hl]) fun i h _ => ?_
  grind

theorem deref_arg (hf : first.deref roots = .ctor id args) (i : Nat) :
    (argPlace first args i).deref roots = args.getD i .wild := by
  unfold argPlace
  split_ifs with hlt
  · rw [Place.deref_child, hf]
    rfl
  · rw [getD_eq_getElem?_getD, getElem?_eq_none (by omega)]
    rfl

theorem deref_field (hf : first.deref roots = .ctor (.record names) args) (name : Symbol) :
    (fieldPlace first names args name).deref roots =
      if name ∈ names then args.getD (names.idxOf name) .wild else .wild := by
  unfold fieldPlace
  by_cases hn : name ∈ names
  · have hi : names.idxOf? name = some (names.idxOf name) :=
      findIdx?_eq_some_iff_findIdx_eq.mpr ⟨idxOf_lt_length_iff.mpr hn, rfl⟩
    rw [hi, if_pos hn]
    exact deref_arg hf _
  · rw [idxOf?_eq_none_iff.mpr hn, if_neg hn]
    rfl

/-- A record pattern matches a value when the pattern for all the names matches its fields. -/
theorem matches_record_iff {all : List Symbol} (hf : first.deref roots = .ctor (.record names) args)
    (hnodup : names.Nodup) (hl : args.length = names.length) (hs : ∀ name ∈ names, name ∈ all)
    (hp : (CtorId.record all).parts value = some parts) :
    (Pat.ctor (.record names) args).matches value = true ↔
      List.Forall₂ (fun place value => (place.deref roots).matches value = true)
        (all.map (fieldPlace first names args)) parts := by
  obtain ⟨b, values, rfl⟩ : ∃ b values, value = .ctor (.record b) values := by
    cases value with
    | int | other => cases hp
    | ctor id values => cases id <;> simp [CtorId.parts] at hp ⊢
  simp only [CtorId.parts, mapM_eq_some_iff] at hp
  rw [forall₂_map_iff hp]
  simp only [deref_field hf]
  have ha := exists_parts_iff.mp ⟨parts, hp⟩
  obtain ⟨given, hg⟩ := exists_parts_iff.mpr fun name hn => ha name (hs name hn)
  rw [matches_ctor_iff]
  constructor
  · rintro ⟨given', hg', hm⟩ name hn part hpr
    split_ifs with hin
    · rw [CtorId.parts, mapM_eq_some_iff] at hg'
      rw [← map_getD_idxOf hnodup hl, forall₂_map_iff hg'] at hm
      exact hm name hin part hpr
    · rfl
  · intro h
    refine ⟨given, mapM_eq_some_iff.mpr hg, ?_⟩
    rw [← map_getD_idxOf hnodup hl, forall₂_map_iff hg]
    grind

theorem map_getD_range : (List.range args.length).map (fun i => args.getD i .wild) = args := by
  refine ext_getElem (by simp) fun i h _ => ?_
  grind

theorem parts_eq_none (hp : ctor.parts value = some parts) (hne : id ≠ ctor)
    (hr : ∀ names, id ≠ .record names) : id.parts value = none := by
  cases value with
  | int | other => cases id <;> rfl
  | ctor b args =>
    rw [parts_ctor_of_ne fun given names h => absurd h (hr given), if_neg]
    rintro rfl
    cases ctor with
    | record given => cases id <;> simp [CtorId.parts] at hp hr
    | _ =>
      rw [parts_ctor_of_ne fun given names h => absurd h (by simp)] at hp
      split_ifs at hp with heq
      exact hne heq.symm

theorem shape_of_record (h : tables.fieldTypes ty (.record names) = some tys) :
    ∃ fields, tables.shape ty = .record fields := by
  cases hs : tables.shape ty with
  | record fields => exact ⟨fields, rfl⟩
  | _ => simp [Tables.fieldTypes, hs] at h

theorem eq_record_of_shape (hs : tables.shape ty = .record fields)
    (h : tables.fieldTypes ty id = some tys) : ∃ names, id = .record names := by
  cases id with
  | record names => exact ⟨names, rfl⟩
  | _ => simp [Tables.fieldTypes, hs] at h

theorem fieldTypes_record (hs : tables.shape ty = .record fields) :
    tables.fieldTypes ty (.record names) = names.mapM fun name => fields.lookup name := by
  simp only [Tables.fieldTypes, hs]

theorem specializeFirst_ctor (hp : first.deref roots = .ctor id args)
    (hr : ∀ names, id ≠ .record names) (arity : Nat) :
    specializeFirst roots first ctor arity =
      if id = ctor then some ((List.range arity).map (argPlace first args)) else none := by
  cases id with
  | record names => exact absurd rfl (hr names)
  | _ => simp only [specializeFirst, hp]

/-- What holds of the places of the arguments is what holds of the arguments. -/
theorem forall₂_argPlace {β : Type} {R : Pat → β → Prop} {us : List β}
    (hp : first.deref roots = .ctor id args) :
    List.Forall₂ (fun place u => R (place.deref roots) u)
      ((List.range args.length).map (argPlace first args)) us ↔ List.Forall₂ R args us := by
  have hm := forall₂_map_left_iff (R := R) (f := fun i => args.getD i .wild)
    (l := List.range args.length) (u := us)
  rw [map_getD_range] at hm
  simp only [forall₂_map_left_iff, deref_arg hp, hm]

/-- The pattern matches a value built with the constructor when it has a specialised pattern and
that matches the parts. -/
theorem specializeFirst_spec (hf : (first.deref roots).hasType tables ty = true)
    (hor : ∀ a, first.deref roots ≠ .or a) (ht : tables.fieldTypes ty ctor = some tys)
    (hn : ∀ names args all, first.deref roots = .ctor (.record names) args → ctor = .record all →
      ∀ name ∈ names, name ∈ all) (hv : value.hasType tables ty = true)
    (hp : ctor.parts value = some parts) :
    (first.deref roots).matches value = true ↔
      ∃ fields, specializeFirst roots first ctor tys.length = some fields ∧
        RowMatches roots fields parts := by
  have hl : parts.length = tys.length := (parts_typed hv ht hp).length_eq
  cases hpt : first.deref roots with
  | wild =>
    refine iff_of_true rfl ⟨_, by simp only [specializeFirst, hpt]; rfl, ?_⟩
    rw [← hl]
    clear hp hl
    induction parts with
    | nil => exact .nil
    | cons part parts ih => exact .cons rfl ih
  | or a => exact absurd hpt (hor a)
  | lit => simp [specializeFirst, hpt, Pat.matches]
  | intRange lo hi =>
    rw [hpt, Pat.hasType] at hf
    cases hs : tables.shape ty with
    | int => simp [Tables.fieldTypes, hs] at ht
    | _ => simp [hs] at hf
  | ctor id args =>
    rw [hpt, hasType_pat_ctor_iff] at hf
    obtain ⟨hd, tys', ht', ha⟩ := hf
    by_cases hr : ∃ names, id = .record names
    · obtain ⟨names, rfl⟩ := hr
      obtain ⟨fields, hs⟩ := shape_of_record ht'
      obtain ⟨all, rfl⟩ := eq_record_of_shape hs ht
      have hl : args.length = names.length := by
        rw [fieldTypes_record hs, mapM_eq_some_iff] at ht'
        rw [ha.length_eq, ht'.length_eq]
      rw [matches_record_iff hpt (of_decide_eq_true hd) hl (hn names args all hpt rfl) hp]
      simp only [specializeFirst, hpt, Option.some.injEq, exists_eq_left']
      rfl
    · push Not at hr
      rw [specializeFirst_ctor hpt hr]
      by_cases heq : id = ctor
      · subst heq
        obtain rfl : tys' = tys := Option.some.inj (ht'.symm.trans ht)
        simp only [if_true, Option.some.injEq, exists_eq_left', matches_ctor_iff, hp]
        rw [← ha.length_eq]
        exact (forall₂_argPlace hpt).symm
      · rw [matches_ctor_iff, parts_eq_none hp heq hr]
        simp [heq]

/-- The pattern of a field has the type that its name has. -/
theorem getD_idxOf_typed {typeOf : Symbol → Option Ty}
    (hn : List.Forall₂ (fun name ty => typeOf name = some ty) names tys)
    (ha : List.Forall₂ (fun pat ty => pat.hasType tables ty = true) args tys)
    (hnm : name ∈ names) (hty : typeOf name = some ty) :
    (args.getD (names.idxOf name) .wild).hasType tables ty = true := by
  induction hn generalizing args with
  | nil => cases hnm
  | @cons first firstTy names tys hf hn ih =>
    cases ha with
    | cons ht ha => grind

theorem specializeFirst_typed {fields : List Place}
    (hfr : (first.deref roots).hasType tables ty = true) (ht : tables.fieldTypes ty ctor = some tys)
    (hf : specializeFirst roots first ctor tys.length = some fields) :
    RowTyped tables roots fields tys := by
  cases hp : first.deref roots with
  | wild =>
    simp only [specializeFirst, hp, Option.some.injEq] at hf
    subst hf
    clear ht
    induction tys with
    | nil => exact .nil
    | cons ty tys ih => exact .cons rfl ih
  | or | lit | intRange => simp [specializeFirst, hp] at hf
  | ctor id args =>
    rw [hp, hasType_pat_ctor_iff] at hfr
    obtain ⟨hd, tys', ht', ha⟩ := hfr
    by_cases hr : ∃ names, id = .record names
    · obtain ⟨names, rfl⟩ := hr
      obtain ⟨declared, hs⟩ := shape_of_record ht'
      obtain ⟨all, rfl⟩ := eq_record_of_shape hs ht
      rw [fieldTypes_record hs, mapM_eq_some_iff] at ht ht'
      simp only [specializeFirst, hp, Option.some.injEq] at hf
      subst hf
      rw [RowTyped, forall₂_map_left_iff]
      refine ht.imp fun name ty hty => ?_
      rw [deref_field hp]
      split_ifs with hn
      · exact getD_idxOf_typed ht' ha hn hty
      · rfl
    · push Not at hr
      rw [specializeFirst_ctor hp hr] at hf
      split_ifs at hf with heq
      subst heq
      obtain rfl : tys' = tys := Option.some.inj (ht'.symm.trans ht)
      obtain rfl := Option.some.inj hf
      rw [← ha.length_eq]
      exact (forall₂_argPlace hp).mpr ha

/-! ### Values for given parts -/

theorem builds_of_ne (h : ∀ names, id ≠ .record names) : tables.builds ty id = true := by
  unfold Tables.builds
  cases id with
  | _ => split <;> simp_all

/-- A value built with other parts for the given names. -/
theorem lookup_updated {old : Symbol → Value} (hn : name ∈ names) :
    (names.zip (names.map fun name => ((given.zip parts).lookup name).getD (old name))).lookup name
      =
      some (((given.zip parts).lookup name).getD (old name)) := by
  induction names with
  | nil => cases hn
  | cons first names ih => grind

/-- The parts of the given names, each found by its name. -/
theorem forall₂_lookup (hnodup : given.Nodup) (hl : given.length = parts.length) :
    List.Forall₂ (fun name part => (given.zip parts).lookup name = some part) given parts := by
  induction given generalizing parts with
  | nil =>
    obtain rfl : parts = [] := length_eq_zero_iff.mp hl.symm
    exact .nil
  | cons name given ih =>
    cases parts with
    | nil => cases hl
    | cons part parts =>
      obtain ⟨hf, hnodup⟩ := nodup_cons.mp hnodup
      have hne : ∀ other ∈ given, other ≠ name := fun other ho heq => hf (heq ▸ ho)
      have hr := (forall₂_and_left given parts).mpr ⟨hne, ih hnodup (by simpa using hl)⟩
      refine .cons (by simp) (hr.imp fun other value ⟨ho, hv⟩ => ?_)
      rwa [zip_cons_cons, lookup_cons, beq_false_of_ne ho]

theorem mem_map_fst_of_lookup (h : fields.lookup name = some ty) : name ∈ fields.map Prod.fst := by
  induction fields with
  | nil => cases h
  | cons field fields ih => grind

theorem lookup_zip_isSome (hl : names.length = values.length) (hn : name ∈ names) :
    ∃ value, (names.zip values).lookup name = some value := by
  induction names generalizing values with
  | nil => cases hn
  | cons first names ih =>
    cases values with
    | nil => cases hl
    | cons value values =>
      rw [zip_cons_cons, lookup_cons]
      by_cases heq : name = first
      · exact ⟨value, by simp [heq]⟩
      grind

/-- A record with the given parts, and the fields of another record for the other names. -/
theorem exists_record_of_parts {base : Value} (hs : tables.shape ty = .record fields)
    (hbs : base.hasType tables ty = true) (hnodup : given.Nodup)
    (hts : List.Forall₂ (fun name ty => fields.lookup name = some ty) given tys)
    (hp : List.Forall₂ (fun value ty => value.hasType tables ty = true) parts tys) :
    ∃ value, value.hasType tables ty = true ∧ (CtorId.record given).parts value = some parts := by
  obtain ⟨names, values, rfl⟩ : ∃ names values, base = .ctor (.record names) values := by
    cases base with
    | int | other => simp [Value.hasType, hs] at hbs
    | ctor b values =>
      obtain ⟨-, tys, hts, -⟩ := hasType_ctor_iff.mp hbs
      obtain ⟨names, rfl⟩ := eq_record_of_shape hs hts
      exact ⟨names, values, rfl⟩
  obtain ⟨hb, tys', hts', hv⟩ := hasType_ctor_iff.mp hbs
  have hn : names = fields.map Prod.fst := by simpa [Tables.builds, hs] using hb
  have ht := hts'
  rw [fieldTypes_record hs, mapM_eq_some_iff] at hts'
  have hln : names.length = values.length := hts'.length_eq.trans hv.length_eq.symm
  let old (name : Symbol) : Value := ((names.zip values).lookup name).getD (.other 0)
  let new (name : Symbol) : Value := ((given.zip parts).lookup name).getD (old name)
  refine ⟨.ctor (.record names) (names.map new), ?_, ?_⟩
  · refine hasType_ctor_iff.mpr ⟨hb, tys', ht, ?_⟩
    rw [forall₂_map_left_iff]
    have hm := (forall₂_and_left names tys').mpr ⟨fun name hnm => hnm, hts'⟩
    refine hm.imp fun name ty ⟨hnm, hty⟩ => ?_
    cases hl : (given.zip parts).lookup name with
    | some part =>
      simp only [new, hl, getD_some]
      exact lookup_typed hts hp hl hty
    | none =>
      obtain ⟨value, hvl⟩ := lookup_zip_isSome hln hnm
      simp only [new, old, hl, hvl, getD_none, getD_some]
      exact lookup_typed hts' hv hvl hty
  · rw [CtorId.parts, mapM_eq_some_iff]
    have hin : ∀ name ∈ given, name ∈ names := fun name hnm => by
      obtain ⟨ty, hty⟩ := exists_parts_iff.mp ⟨tys, hts⟩ name hnm
      rw [hn]
      exact mem_map_fst_of_lookup hty
    have hlk := (forall₂_and_left given parts).mpr
      ⟨hin, forall₂_lookup hnodup (hts.length_eq.trans hp.length_eq.symm)⟩
    refine hlk.imp fun name part ⟨hnm, hpr⟩ => ?_
    rw [lookup_updated hnm, hpr, getD_some]

/-- Every row of parts of the right types is that of a value, when the type has one. -/
theorem exists_of_parts {base : Value} (hb : base.hasType tables ty = true)
    (hd : id.distinct = true) (ht : tables.fieldTypes ty id = some tys)
    (hp : List.Forall₂ (fun value ty => value.hasType tables ty = true) parts tys) :
    ∃ value, value.hasType tables ty = true ∧ id.parts value = some parts := by
  by_cases hr : ∃ names, id = .record names
  · obtain ⟨given, rfl⟩ := hr
    obtain ⟨fields, hs⟩ := shape_of_record ht
    rw [fieldTypes_record hs, mapM_eq_some_iff] at ht
    exact exists_record_of_parts hs hb (of_decide_eq_true hd) ht hp
  · push Not at hr
    refine ⟨.ctor id parts, hasType_ctor_iff.mpr ⟨builds_of_ne hr, tys, ht, hp⟩, ?_⟩
    rw [parts_ctor_of_ne fun given _ h => absurd h (hr given), if_pos rfl]

end Rows

end Silt.Typechecker
