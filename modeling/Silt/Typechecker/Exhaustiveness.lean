import Silt.Lib.Settles
import Silt.Typechecker.Rows

/-!
# The search is exact

A search that does not give up answers `none` exactly when the rows match every row of values, and a
witness it gives stands for values that no row matches. Each step of the search is a smaller problem
whose answer is carried over by the rules of `Settles`: the rows of alternatives match what the row
did, a column is split by the constructors of its type, integers by the intervals that no range
divides.

## Main results

* `Silt.Typechecker.right_uncovered`: the answer of a search is right.
* `Silt.Typechecker.uncovered_exact`: the same in terms of values, and what it says of a match that
  is accepted.
-/

namespace Silt.Typechecker

open List

/-! ### Runs that do not give up -/

/-- The search returns the answer, whatever it had looked at before. -/
def Yields {α : Type} (search : Search α) (answer : α) : Prop :=
  ∃ cells cells', search.run.run cells = (.ok answer, cells')

section Yields

variable {α β : Type}

theorem yields_pure {a b : α} : Yields (pure a) b ↔ a = b := by
  constructor
  · rintro ⟨cs, cs', h⟩
    cases h
    rfl
  · rintro rfl
    exact ⟨0, 0, rfl⟩

theorem not_yields_throw {e : Unverified} {b : α} : ¬Yields (throw e) b := by
  rintro ⟨cs, cs', h⟩
  cases h

theorem Yields.of_bind {search : Search α} {next : α → Search β} {b : β}
    (h : Yields (search >>= next) b) : ∃ a, Yields search a ∧ Yields (next a) b := by
  obtain ⟨cs, cs', h⟩ := h
  rw [ExceptT.run_bind, StateT.run_bind] at h
  cases hr : search.run.run cs with
  | mk answer middle =>
    rw [hr] at h
    cases answer with
    | error e => cases h
    | ok a => exact ⟨a, ⟨cs, middle, hr⟩, ⟨middle, cs', h⟩⟩

end Yields

/-- The rows are of the types. -/
def RowsTyped (tables : Tables) (roots : List Pat) (rows : List Row) (tys : List Ty) : Prop :=
  ∀ row ∈ rows, RowTyped tables roots row tys

/-! ### Rows by their first pattern -/

section First

variable {roots : List Pat} {rows : List Row}

theorem mem_filterMap_first {α : Type} {f : Row → Option α} (hn : f [] = none) {a : α} :
    a ∈ rows.filterMap f ↔ ∃ first rest, first :: rest ∈ rows ∧ f (first :: rest) = some a := by
  rw [mem_filterMap]
  constructor
  · rintro ⟨_ | ⟨first, rest⟩, hr, heq⟩
    · rw [hn] at heq
      cases heq
    · exact ⟨first, rest, hr, heq⟩
  grind

theorem matched_cons {value : Value} {values : List Value} :
    value :: values ∈ Matched roots rows ↔ ∃ first rest, first :: rest ∈ rows ∧
      (first.deref roots).matches value = true ∧ RowMatches roots rest values := by
  constructor
  · rintro ⟨_ | ⟨first, rest⟩, hrw, hm⟩
    · cases hm
    · exact ⟨first, rest, hrw, forall₂_cons.mp hm⟩
  · rintro ⟨first, rest, hrw, hf, hr⟩
    exact ⟨first :: rest, hrw, .cons hf hr⟩

end First

/-! ### The constructors of a type -/

section Signature

variable {ty : Ty} {names : List Symbol} {name : Symbol} {rows : List Row} {i : Nat}
  {variants : List (Nat × List Ty)} {tys : List Ty}

variable {tables : Tables} {roots : List Pat}

/-- The constructors of `sig` are the constructors of the type, with the number of their fields; of
a record, with the fields that the rows name. -/
structure IsSignature (tables : Tables) (roots : List Pat) (rows : List Row) (ty : Ty)
    (sig : List (CtorId × Nat)) : Prop where
  fields : ∀ ctor ∈ sig, ctor.1.distinct = true ∧
    ∃ tys, tables.fieldTypes ty ctor.1 = some tys ∧ tys.length = ctor.2
  named : ∀ ctor ∈ sig, ∀ all, ctor.1 = .record all → ∀ row ∈ rows, ∀ name ∈ recordNames roots row,
    name ∈ all
  complete : ∀ value, value.hasType tables ty = true → ∃ ctor ∈ sig, ∃ parts,
    ctor.1.parts value = some parts

theorem exists_ctor_of_hasType {value : Value} (h : value.hasType tables ty = true)
    (hi : tables.shape ty ≠ .int) (ho : tables.shape ty ≠ .other) :
    ∃ id args tys, value = .ctor id args ∧ tables.builds ty id = true ∧
      tables.fieldTypes ty id = some tys ∧ args.length = tys.length := by
  cases value with
  | int n | other n =>
    rw [Value.hasType] at h
    cases hs : tables.shape ty <;> simp_all
  | ctor id args =>
    obtain ⟨hb, tys, ht, ha⟩ := hasType_ctor_iff.mp h
    exact ⟨id, args, tys, rfl, hb, ht, ha.length_eq⟩

theorem foldl_max_eq {l : List Nat} {n : Nat} (hal : ∀ m ∈ l, m = n) {a : Nat} (ha : a ≤ n)
    (hne : l ≠ [] ∨ a = n) : l.foldl max a = n := by
  induction l generalizing a with
  | nil => simpa using hne
  | cons m l ih => simp_all

theorem mem_addNames {given : List Symbol} :
    name ∈ addNames names given ↔ name ∈ names ∨ name ∈ given := by
  induction given generalizing names with
  | nil => simp [addNames]
  | cons first given ih =>
    have hs : addNames names (first :: given) =
        addNames (if first ∈ names then names else names ++ [first]) given := rfl
    grind

theorem nodup_addNames {given : List Symbol} (h : names.Nodup) : (addNames names given).Nodup := by
  induction given generalizing names with
  | nil => exact h
  | cons first given ih =>
    refine ih ?_
    grind

theorem foldl_addNames (names : List Symbol) :
    rows.foldl (fun names row => addNames names (recordNames roots row)) names =
      addNames names (rows.flatMap (recordNames roots)) :=
  foldl_flatMap.symm

theorem substituteAll_length (ids : List TyVar) (args tys : List Ty) :
    (substituteAll ids args tys).length = tys.length := by
  induction tys with
  | nil => rfl
  | cons ty tys ih => simp [substituteAll, ih]

variable {variant : Nat × VariantInfo}

theorem le_of_mem_distinctFrom {seen : List Symbol} {variants : List VariantInfo}
    (h : variant ∈ distinctFrom i seen variants) : i ≤ variant.1 := by
  induction variants generalizing i seen with
  | nil => cases h
  | cons first variants ih =>
    rw [distinctFrom] at h
    grind

/-- A variant is found by its number. -/
theorem lookup_distinctFrom {α : Type} {seen : List Symbol} {variants : List VariantInfo}
    (f : VariantInfo → α)
    (h : variant ∈ distinctFrom i seen variants) :
    ((distinctFrom i seen variants).map fun variant => (variant.1, f variant.2)).lookup variant.1 =
      some (f variant.2) := by
  induction variants generalizing i seen with
  | nil => cases h
  | cons first variants ih =>
    rw [distinctFrom] at h ⊢
    split_ifs at h ⊢ with hs
    · exact ih h
    · rw [map_cons, lookup_cons]
      rcases mem_cons.mp h with rfl | h
      · simp
      · have hle := le_of_mem_distinctFrom h
        rw [beq_false_of_ne (by simp only; omega)]
        exact ih h

theorem shape_eq_enum {name : TypeRef} (h : tables.shape ty = .enum name variants) :
    ∃ info, tables.enums name = some info ∧
      ∃ tys, variants =
        (distinctVariants info).map
          fun variant => (variant.1, substituteAll info.paramVarIds tys variant.2.fieldTypes) := by
  cases ty with
  | generic given args =>
    change tables.shapeOf given args = _ at h
    unfold Tables.shapeOf at h
    cases hi : tables.enums given with
    | some info =>
      simp only [hi] at h
      cases h
      exact ⟨info, hi, args, rfl⟩
    | none => cases hr : tables.records given <;> simp [hi, hr] at h
  | _ => cases h

theorem isSignature_variant {name : TypeRef} (hs : tables.shape ty = .enum name variants) :
    ∃ sig, (tables.enums name).map (fun info => (distinctVariants info).map fun variant =>
        (CtorId.variant name variant.1, variant.2.fieldTypes.length)) = some sig ∧
      IsSignature tables roots rows ty sig := by
  obtain ⟨info, hi, args, rfl⟩ := shape_eq_enum hs
  refine ⟨_, by rw [hi]; rfl, ?_, ?_, ?_⟩
  · rintro ctor hc
    obtain ⟨variant, hv, rfl⟩ := mem_map.mp hc
    refine ⟨rfl, _, ?_, substituteAll_length info.paramVarIds args variant.2.fieldTypes⟩
    simp only [Tables.fieldTypes, hs, if_true]
    exact lookup_distinctFrom (fun variant =>
      substituteAll info.paramVarIds args variant.fieldTypes)
      hv
  · grind
  · intro value hvl
    obtain ⟨id, args', tys, rfl, -, ht, -⟩ :=
      exists_ctor_of_hasType hvl (by simp [hs]) (by simp [hs])
    cases id with
    | variant given index =>
      simp only [Tables.fieldTypes, hs] at ht
      split_ifs at ht with heq
      subst heq
      obtain ⟨variant, hv, heq⟩ := mem_map.mp (mem_of_lookup ht)
      obtain ⟨rfl, -⟩ := Prod.mk.inj heq
      exact ⟨_, mem_map_of_mem hv, args', by simp [CtorId.parts]⟩
    | _ => simp [Tables.fieldTypes, hs] at ht

variable {declared : List (Symbol × Ty)}

theorem isSignature_record
    (hs : tables.shape ty = .record declared) (hnodup : names.Nodup)
    (hn : ∀ row ∈ rows, ∀ name ∈ recordNames roots row, name ∈ names)
    (ht : ∀ name ∈ names, ∃ ty, declared.lookup name = some ty) :
    IsSignature tables roots rows ty [(.record names, names.length)] where
  fields := by
    rintro ctor (_ | ⟨_, ⟨⟩⟩)
    obtain ⟨tys, hts⟩ := exists_parts_iff.mpr ht
    refine ⟨decide_eq_true hnodup, tys, ?_, hts.length_eq.symm⟩
    rw [fieldTypes_record hs, mapM_eq_some_iff]
    exact hts
  named := by
    rintro ctor (_ | ⟨_, ⟨⟩⟩) all heq
    cases heq
    exact hn
  complete := by
    intro value hv
    obtain ⟨id, args, tys, rfl, hb, hts, hl⟩ :=
      exists_ctor_of_hasType hv (by simp [hs]) (by simp [hs])
    obtain ⟨built, rfl⟩ := eq_record_of_shape hs hts
    have hbl : built = declared.map Prod.fst := by simpa [Tables.builds, hs] using hb
    rw [fieldTypes_record hs, mapM_eq_some_iff] at hts
    have hp : ∀ name ∈ names, ∃ part, (built.zip args).lookup name = some part := by
      intro name hnm
      obtain ⟨fieldTy, hty⟩ := ht name hnm
      refine lookup_zip_isSome (by rw [hts.length_eq, hl]) ?_
      rw [hbl]
      exact mem_map_fst_of_lookup hty
    obtain ⟨parts, hp⟩ := exists_parts_iff.mpr hp
    exact ⟨_, mem_singleton_self _, parts, mapM_eq_some_iff.mpr hp⟩

/-- A type with fixed constructors, none of them a record. -/
theorem isSignature_of_fixed {sig : List (CtorId × Nat)} (hi : tables.shape ty ≠ .int)
    (ho : tables.shape ty ≠ .other)
    (hs : ∀ ctor ∈ sig, (∀ all, ctor.1 ≠ .record all) ∧
      ∃ tys, tables.fieldTypes ty ctor.1 = some tys ∧ tys.length = ctor.2)
    (hc : ∀ id tys, tables.fieldTypes ty id = some tys → ∃ arity, (id, arity) ∈ sig) :
    IsSignature tables roots rows ty sig where
  fields := by
    rintro ctor hct
    obtain ⟨hr, ht⟩ := hs ctor hct
    refine ⟨?_, ht⟩
    cases hid : ctor.1 with
    | record all => exact absurd hid (hr all)
    | _ => rfl
  named := by
    rintro ctor hct all heq
    exact absurd heq ((hs ctor hct).1 all)
  complete := by
    intro value hv
    obtain ⟨id, args, tys, rfl, -, ht, -⟩ := exists_ctor_of_hasType hv hi ho
    obtain ⟨arity, hm⟩ := hc id tys ht
    refine ⟨_, hm, args, ?_⟩
    rw [parts_ctor_of_ne fun given _ h => absurd h ((hs _ hm).1 given), if_pos rfl]

/-- A row whose first pattern has the constructor. -/
def HasCtor (roots : List Pat) (rows : List Row) (id : CtorId) : Prop :=
  ∃ first rest args, first :: rest ∈ rows ∧ first.deref roots = .ctor id args

theorem typed_first {first : Place} {rest : Row}
    (ht : RowsTyped tables roots rows (ty :: tys)) (hr : first :: rest ∈ rows) :
    (first.deref roots).hasType tables ty = true ∧ RowTyped tables roots rest tys := by
  have hr := ht _ hr
  rw [RowTyped, forall₂_cons] at hr
  exact hr

/-- The names that a typed row gives are names of fields. -/
theorem lookup_of_recordNames (hs : tables.shape ty = .record declared)
    (ht : RowsTyped tables roots rows (ty :: tys)) {row : Row} (hr : row ∈ rows)
    (hn : name ∈ recordNames roots row) : ∃ fieldTy, declared.lookup name = some fieldTy := by
  cases row with
  | nil => cases hn
  | cons first rest =>
    obtain ⟨hf, -⟩ := typed_first ht hr
    rw [recordNames] at hn
    cases hp : first.deref roots with
    | ctor id args =>
      cases id with
      | record names =>
        simp only [hp] at hn
        rw [hp, hasType_pat_ctor_iff] at hf
        obtain ⟨-, fieldTys, hts, -⟩ := hf
        rw [fieldTypes_record hs, mapM_eq_some_iff] at hts
        exact exists_parts_iff.mp ⟨fieldTys, hts⟩ name hn
      | _ => simp [hp] at hn
    | _ => simp [hp] at hn

/-- The arity of the tuple patterns of a column is that of its type. -/
theorem tupleArity_eq {elems : List Ty} (hs : tables.shape ty = .tuple elems)
    (ht : RowsTyped tables roots rows (ty :: tys)) (hc : HasCtor roots rows .tuple) :
    (rows.filterMap (tupleArity roots)).foldl max 0 = elems.length := by
  have hal : ∀ n ∈ rows.filterMap (tupleArity roots), n = elems.length := by
    intro n hn
    obtain ⟨row, hr, ha⟩ := mem_filterMap.mp hn
    cases row with
    | nil => cases ha
    | cons first rest =>
      obtain ⟨hf, -⟩ := typed_first ht hr
      rw [tupleArity] at ha
      cases hp : first.deref roots with
      | ctor id args =>
        cases id with
        | tuple =>
          simp only [hp, Option.some.injEq] at ha
          rw [hp, hasType_pat_ctor_iff] at hf
          obtain ⟨-, fieldTys, hts, har⟩ := hf
          simp only [Tables.fieldTypes, hs, Option.some.injEq] at hts
          rw [← ha, har.length_eq, hts]
        | _ => simp [hp] at ha
      | _ => simp [hp] at ha
  refine foldl_max_eq hal (Nat.zero_le _) (.inl fun hnl => ?_)
  obtain ⟨first, rest, args, hr, hp⟩ := hc
  have hm : args.length ∈ rows.filterMap (tupleArity roots) :=
    mem_filterMap.mpr ⟨_, hr, by simp [tupleArity, hp]⟩
  rw [hnl] at hm
  cases hm

/-- The signature that the search takes is that of the type of the column. -/
theorem signature_spec {id : CtorId} (ht : RowsTyped tables roots rows (ty :: tys))
    (hc : HasCtor roots rows id) :
    ∃ sig, signature roots tables.enums id rows = some sig ∧
      IsSignature tables roots rows ty sig := by
  obtain ⟨fieldTys, hts⟩ : ∃ fieldTys, tables.fieldTypes ty id = some fieldTys := by
    obtain ⟨first, rest, args, hr, hp⟩ := hc
    obtain ⟨hf, -⟩ := typed_first ht hr
    rw [hp, hasType_pat_ctor_iff] at hf
    obtain ⟨-, fieldTys, hts, -⟩ := hf
    exact ⟨fieldTys, hts⟩
  cases hs : tables.shape ty with
  | int | other | never => simp [Tables.fieldTypes, hs] at hts
  | record declared =>
    obtain ⟨names, rfl⟩ := eq_record_of_shape hs hts
    refine ⟨_, rfl, ?_⟩
    rw [foldl_addNames]
    refine isSignature_record hs (nodup_addNames nodup_nil) (fun row hr name hn => ?_)
      fun name hn => ?_
    · exact mem_addNames.mpr (.inr (mem_flatMap.mpr ⟨row, hr, hn⟩))
    · rcases mem_addNames.mp hn with hn | hn
      · cases hn
      · obtain ⟨row, hr, hn⟩ := mem_flatMap.mp hn
        exact lookup_of_recordNames hs ht hr hn
  | enum name variants =>
    cases id with
    | variant given index =>
      simp only [Tables.fieldTypes, hs] at hts
      split_ifs at hts with heq
      subst heq
      exact isSignature_variant hs
    | _ => simp [Tables.fieldTypes, hs] at hts
  | tuple elems =>
    cases id with
    | tuple =>
      refine ⟨_, by rw [signature, tupleArity_eq hs ht hc], ?_⟩
      refine isSignature_of_fixed (by simp [hs]) (by simp [hs]) ?_ ?_
      · rintro ctor (_ | ⟨_, ⟨⟩⟩)
        exact ⟨by simp, elems, by simp [Tables.fieldTypes, hs], rfl⟩
      · intro id tys hts
        cases id <;> simp [Tables.fieldTypes, hs] at hts ⊢
    | _ => simp [Tables.fieldTypes, hs] at hts
  | bool =>
    cases id with
    | bool value =>
      refine ⟨_, rfl, isSignature_of_fixed (by simp [hs]) (by simp [hs]) ?_ ?_⟩
      · rintro ctor (_ | ⟨_, _ | ⟨_, ⟨⟩⟩⟩) <;>
          exact ⟨by simp, [], by simp [Tables.fieldTypes, hs], rfl⟩
      · intro id tys hts
        cases id with
        | bool value => cases value <;> exact ⟨0, by simp⟩
        | _ => simp [Tables.fieldTypes, hs] at hts
    | _ => simp [Tables.fieldTypes, hs] at hts
  | list elem =>
    have hsg : IsSignature tables roots rows ty [(.nil, 0), (.cons, 2)] := by
      refine isSignature_of_fixed (by simp [hs]) (by simp [hs]) ?_ ?_
      · rintro ctor (_ | ⟨_, _ | ⟨_, ⟨⟩⟩⟩)
        · exact ⟨by simp, [], by simp [Tables.fieldTypes, hs], rfl⟩
        · exact ⟨by simp, [elem, ty], by simp [Tables.fieldTypes, hs], rfl⟩
      · intro id tys hts
        cases id with
        | nil => exact ⟨0, by simp⟩
        | cons => exact ⟨2, by simp⟩
        | _ => simp [Tables.fieldTypes, hs] at hts
    cases id with
    | nil | cons => exact ⟨_, rfl, hsg⟩
    | _ => simp [Tables.fieldTypes, hs] at hts

end Signature

/-! ### One step of the search -/

/-- The types that a search over columns of the types can come to. -/
inductive Part (tables : Tables) (tys : List Ty) : Ty → Prop
  | column {ty : Ty} (h : ty ∈ tys) : Part tables tys ty
  | field {ty fieldTy : Ty} {id : CtorId} {fieldTys : List Ty} (hty : Part tables tys ty)
      (hfields : tables.fieldTypes ty id = some fieldTys) (h : fieldTy ∈ fieldTys) :
      Part tables tys fieldTy

/-- Every type that the search can come to has a value. -/
def AllInhabited (tables : Tables) (tys : List Ty) : Prop :=
  ∀ ty, Part tables tys ty → ∃ value : Value, value.hasType tables ty = true

section Steps

variable {fieldTys : List Ty} {found : Option (List Witness)} {values : List Value} {row : Row}
  {ctor : CtorId}

variable {tables : Tables} {roots : List Pat} {rows : List Row} {ty : Ty} {tys : List Ty}

theorem AllInhabited.mono {tys' : List Ty} (h : AllInhabited tables tys)
    (hp : ∀ ty ∈ tys', Part tables tys ty) : AllInhabited tables tys' := by
  intro ty hty
  refine h ty ?_
  induction hty with
  | column hm => exact hp _ hm
  | field _ hf hm ih => exact .field ih hf hm

theorem AllInhabited.tail (h : AllInhabited tables (ty :: tys)) : AllInhabited tables tys :=
  h.mono fun _ hm => .column (mem_cons_of_mem _ hm)

theorem AllInhabited.fields (h : AllInhabited tables (ty :: tys)) {id : CtorId}
    (hf : tables.fieldTypes ty id = some fieldTys) : AllInhabited tables (fieldTys ++ tys) := by
  refine h.mono fun other hm => ?_
  rcases mem_append.mp hm with hm | hm
  · exact .field (.column (by simp)) hf hm
  · exact .column (mem_cons_of_mem _ hm)

theorem AllInhabited.exists_values (h : AllInhabited tables tys) :
    ∃ values, values ∈ ValuesTyped tables tys := by
  induction tys with
  | nil => exact ⟨[], .nil⟩
  | cons ty tys ih =>
    obtain ⟨value, hv⟩ := h ty (.column (by simp))
    obtain ⟨values, hvl⟩ := ih h.tail
    exact ⟨value :: values, .cons hv hvl⟩

/-- The answer of a search over the rows, for columns of the types, is right. -/
def Right (tables : Tables) (roots : List Pat) (rows : List Row) (tys : List Ty)
    (found : Option (List Witness)) : Prop :=
  Settles (AllInhabited tables tys) (ValuesTyped tables tys) (Matched roots rows) Described found

/-- The searches of a function are right, and it covers nothing without a row. -/
structure Sound (tables : Tables) (roots : List Pat)
    (look : List Row → Nat → Search (Option (List Witness))) : Prop where
  right : ∀ {rows tys found}, RowsTyped tables roots rows tys →
    Yields (look rows tys.length) found → Right tables roots rows tys found
  nil : ∀ width, ¬Yields (look [] width) none

theorem right_counted (h : Right tables roots (countedRows roots rows) tys found) :
    Right tables roots rows tys found := by
  refine h.congr fun values _ => ?_
  constructor
  · rintro ⟨row, hr, hm⟩
    exact ⟨row, (mem_filter.mp hr).1, hm⟩
  · rintro ⟨row, hr, hm⟩
    refine ⟨row, mem_filter.mpr ⟨hr, ?_⟩, hm⟩
    by_contra ha
    rw [Bool.not_eq_true', Bool.not_eq_false] at ha
    exact not_rowMatches_of_any ha hm

theorem describes_replicate : values ∈ Described (List.replicate values.length .any) := by
  induction values with
  | nil => exact .nil
  | cons value values ih => exact .cons rfl ih

theorem right_nil : Right tables roots [] tys (some (List.replicate tys.length .any)) where
  covered := nofun
  missed _ _ values _ _ := by
    rintro ⟨row, hr, -⟩
    cases hr
  exists_missed hlv witnesses hw := by
    obtain rfl := Option.some.inj hw
    obtain ⟨values, hv⟩ := hlv.exists_values
    have hl : values.length = tys.length := hv.length_eq
    exact ⟨values, hv, hl ▸ describes_replicate⟩

theorem rowMatches_of_wild (hl : row.length = values.length)
    (hw : ∀ place ∈ row, (place.deref roots).isWild = true) : RowMatches roots row values := by
  induction row generalizing values with
  | nil =>
    obtain rfl : values = [] := length_eq_zero_iff.mp hl.symm
    exact .nil
  | cons place row ih =>
    cases values with
    | nil => cases hl
    | cons value values =>
      refine .cons ?_ (ih (by simpa using hl) fun other ho =>
        hw other (mem_cons_of_mem _ ho))
      rw [isWild_iff.mp (hw place (by simp))]
      rfl

theorem right_of_wild (ht : RowsTyped tables roots rows tys) (hr : row ∈ rows)
    (hw : ∀ place ∈ row, (place.deref roots).isWild = true) : Right tables roots rows tys none := by
  refine Settles.of_cases fun values hv => ⟨row, hr, rowMatches_of_wild ?_ hw⟩
  have hts : row.length = tys.length := (ht row hr).length_eq
  have hl : values.length = tys.length := hv.length_eq
  rw [hts, hl]

theorem right_swap {column : Nat} (hc : column < tys.length) (ht : RowsTyped tables roots rows tys)
    (h : Right tables roots (rows.map (swapFirst column)) (swapFirst column tys) found) :
    Right tables roots rows tys (found.map (swapFirst column)) := by
  have hmt (values : List Value) (hv : values ∈ ValuesTyped tables tys) : swapFirst column values ∈
      Matched roots (rows.map (swapFirst column)) ↔ values ∈ Matched roots rows := by
    have hl : values.length = tys.length := hv.length_eq
    constructor
    · rintro ⟨_, hs, hm⟩
      obtain ⟨row, hr, rfl⟩ := mem_map.mp hs
      have hts : row.length = tys.length := (ht row hr).length_eq
      exact ⟨row, hr, (forall₂_swapFirst_iff (by omega) (by omega)).mp hm⟩
    · rintro ⟨row, hr, hm⟩
      exact ⟨_, mem_map_of_mem hr, forall₂_swapFirst hm column⟩
  refine Settles.lift h (swapFirst column) (swapFirst column) (fun values hv =>
    forall₂_swapFirst hv column) (fun values hv => (hmt values hv).mp) ?_ ?_
  · intro witnesses values hv hd
    refine ⟨?_, (hmt values hv).mpr⟩
    have hl : values.length = tys.length := hv.length_eq
    have hw : (swapFirst column witnesses).length = values.length := hd.length_eq
    rw [length_swapFirst] at hw
    have hb := forall₂_swapFirst hd column
    rwa [swapFirst_swapFirst (by omega)] at hb
  · intro hlv
    refine ⟨hlv.mono fun other ho => .column ?_, fun witnesses values hv hd => ?_⟩
    · exact mem_of_mem_swapFirst ho
    · have hl : values.length = (swapFirst column tys).length := hv.length_eq
      refine ⟨swapFirst column values, ?_, forall₂_swapFirst hd column⟩
      have hb := forall₂_swapFirst hv column
      rwa [swapFirst_swapFirst hc] at hb

/-- Rows whose first column has no or-pattern and no test that covers nothing. -/
structure Expanded (tables : Tables) (roots : List Pat) (rows : List Row) (ty : Ty)
    (tys : List Ty) :
    Prop where
  typed : RowsTyped tables roots rows (ty :: tys)
  not_or : ∀ first rest, first :: rest ∈ rows → ∀ alts, first.deref roots ≠ .or alts
  counts : ∀ first rest, first :: rest ∈ rows → coversNothing (first.deref roots) = false

theorem mem_expand :
    row ∈ expandRows roots rows ↔
      ∃ first rest alt, first :: rest ∈ rows ∧ alt ∈ alternatives (first.deref roots) first ∧
        row = alt :: rest ∧ coversNothing (alt.deref roots) = false := by
  rw [expandRows, mem_filter, mem_flatMap]
  constructor
  · rintro ⟨⟨_ | ⟨first, rest⟩, hr, hm⟩, hc⟩
    · cases hm
    · obtain ⟨alt, ha, rfl⟩ := mem_map.mp hm
      exact ⟨first, rest, alt, hr, ha, rfl, by simpa using hc⟩
  · rintro ⟨first, rest, alt, hr, ha, rfl, hc⟩
    exact ⟨⟨first :: rest, hr, mem_map.mpr ⟨alt, ha, rfl⟩⟩, by simp [hc]⟩

theorem expanded_expand (ht : RowsTyped tables roots rows (ty :: tys)) :
    Expanded tables roots (expandRows roots rows) ty tys where
  typed row hrw := by
    obtain ⟨first, rest, alt, hm, ha, rfl, -⟩ := mem_expand.mp hrw
    obtain ⟨hf, hr⟩ := typed_first ht hm
    exact .cons ((alternatives_spec _ first rfl ha).2 ty hf) hr
  not_or alt rest hrw := by
    obtain ⟨first, rest, alt, -, ha, heq, -⟩ := mem_expand.mp hrw
    obtain ⟨rfl, -⟩ := List.cons.inj heq
    exact (@alternatives_spec tables roots _ first rfl _ ha).1
  counts alt rest hrw := by
    obtain ⟨first, rest, alt, -, -, heq, hc⟩ := mem_expand.mp hrw
    obtain ⟨rfl, -⟩ := List.cons.inj heq
    exact hc

theorem right_expand (h : Right tables roots (expandRows roots rows) (ty :: tys) found) :
    Right tables roots rows (ty :: tys) found := by
  refine h.congr ?_
  rintro values (_ | ⟨hv, hvl⟩)
  rw [matched_cons, matched_cons]
  constructor
  · rintro ⟨other, rest, hrw, hf, hr⟩
    obtain ⟨first, rest, alt, hmm, ha, heq, -⟩ := mem_expand.mp hrw
    obtain ⟨rfl, rfl⟩ := List.cons.inj heq
    exact ⟨first, _, hmm, (matches_alternatives _ first rfl _).mpr ⟨_, ha, hf⟩, hr⟩
  · rintro ⟨first, rest, hrw, hf, hr⟩
    obtain ⟨alt, ha, hm⟩ := (matches_alternatives _ first rfl _).mp hf
    refine ⟨alt, rest, mem_expand.mpr ⟨first, rest, alt, hrw, ha, rfl, ?_⟩, hm, hr⟩
    by_contra hn
    rw [Bool.not_eq_false] at hn
    rw [matches_of_coversNothing hn] at hm
    cases hm

theorem mem_defaultRows :
    row ∈ defaultRows roots rows ↔ ∃ first, first :: row ∈ rows ∧ first.deref roots = .wild := by
  rw [defaultRows, mem_filterMap_first rfl]
  constructor
  · rintro ⟨first, rest, hr, heq⟩
    simp only at heq
    split_ifs at heq with hw
    obtain rfl := Option.some.inj heq
    exact ⟨first, hr, isWild_iff.mp hw⟩
  · rintro ⟨first, hr, hw⟩
    exact ⟨first, row, hr, by simp [hw, Pat.isWild]⟩

theorem defaultRows_typed (ht : RowsTyped tables roots rows (ty :: tys)) :
    RowsTyped tables roots (defaultRows roots rows) tys := by
  intro row hr
  obtain ⟨first, hm, -⟩ := mem_defaultRows.mp hr
  exact (typed_first ht hm).2

/-- What the rows that do not test the column match, the rows match. -/
theorem matched_of_default {value : Value} (h : values ∈ Matched roots (defaultRows roots rows)) :
    value :: values ∈ Matched roots rows := by
  obtain ⟨row, hr, hm⟩ := h
  obtain ⟨first, hmm, hw⟩ := mem_defaultRows.mp hr
  refine ⟨first :: row, hmm, .cons ?_ hm⟩
  rw [hw]
  rfl

/-- When no row that tests the column takes the values of `witness`, the other rows decide. -/
theorem right_default (witness : Witness)
    (hw : AllInhabited tables (ty :: tys) →
      ∃ value : Value, witness.describes value = true ∧ value.hasType tables ty = true)
    (hf : ∀ first rest, first :: rest ∈ rows → first.deref roots ≠ .wild →
      ∀ value : Value, value.hasType tables ty = true → witness.describes value = true →
        (first.deref roots).matches value = false)
    (h : Right tables roots (defaultRows roots rows) tys found) :
    Right tables roots rows (ty :: tys) (found.map (witness :: ·)) := by
  refine Settles.lift h List.tail (witness :: ·) ?_ ?_ ?_ ?_
  · rintro values (_ | ⟨hvl, hv⟩)
    exact hv
  · rintro values (_ | ⟨hvl, hv⟩) hm
    exact matched_of_default hm
  · rintro witnesses values (_ | ⟨hvl, hv⟩) (_ | ⟨hd, hr⟩)
    refine ⟨hr, fun hm => ?_⟩
    obtain ⟨first, rest, hrw, hmt, hma⟩ := matched_cons.mp hm
    refine ⟨rest, mem_defaultRows.mpr ⟨first, hrw, ?_⟩, hma⟩
    grind
  · intro hl
    refine ⟨hl.tail, fun witnesses values hv hds => ?_⟩
    obtain ⟨value, hd, ht⟩ := hw hl
    exact ⟨value :: values, .cons ht hv, .cons hd hds⟩

theorem mem_specialize {arity : Nat} :
    row ∈ specialize roots rows ctor arity ↔ ∃ first rest fields, first :: rest ∈ rows ∧
      specializeFirst roots first ctor arity = some fields ∧ row = fields ++ rest := by
  rw [specialize, mem_filterMap_first rfl]
  constructor
  · rintro ⟨first, rest, hr, heq⟩
    obtain ⟨fields, hf, rfl⟩ := Option.map_eq_some_iff.mp heq
    exact ⟨first, rest, fields, hr, hf, rfl⟩
  grind

theorem specialize_typed (ht : RowsTyped tables roots rows (ty :: tys))
    (hfl : tables.fieldTypes ty ctor = some fieldTys) :
    RowsTyped tables roots (specialize roots rows ctor fieldTys.length) (fieldTys ++ tys) := by
  intro row hrw
  obtain ⟨first, rest, fields, hm, hs, rfl⟩ := mem_specialize.mp hrw
  obtain ⟨hf, hr⟩ := typed_first ht hm
  exact rel_append (specializeFirst_typed hf hfl hs) hr

/-- The rows match values whose first is built with the constructor when the specialised rows match
the parts of the first and the others. -/
theorem matched_specialize (hr : Expanded tables roots rows ty tys)
    (hfl : tables.fieldTypes ty ctor = some fieldTys)
    (hn : ∀ all, ctor = .record all → ∀ row ∈ rows, ∀ name ∈ recordNames roots row, name ∈ all)
    {value : Value} {parts : List Value} (hv : value.hasType tables ty = true)
    (hp : ctor.parts value = some parts) :
    value :: values ∈ Matched roots rows ↔
      parts ++ values ∈ Matched roots (specialize roots rows ctor fieldTys.length) := by
  have hsp (first : Place) (rest : Row) (hrw : first :: rest ∈ rows) :=
    specializeFirst_spec (typed_first hr.typed hrw).1 (hr.not_or first rest hrw) hfl
      (fun names args all hpt heq name hnm =>
        hn all heq _ hrw name (by simpa [recordNames, hpt] using hnm)) hv hp
  rw [matched_cons]
  constructor
  · rintro ⟨first, rest, hrw, hf, hrs⟩
    obtain ⟨fields, hs, hmt⟩ := (hsp first rest hrw).mp hf
    exact ⟨fields ++ rest, mem_specialize.mpr ⟨first, rest, fields, hrw, hs, rfl⟩,
      rel_append hmt hrs⟩
  · rintro ⟨row, hrw, hm⟩
    obtain ⟨first, rest, fields, hmm, hs, rfl⟩ := mem_specialize.mp hrw
    have hl : fields.length = parts.length := by
      rw [(specializeFirst_typed (typed_first hr.typed hmm).1 hfl hs).length_eq,
        (parts_typed hv hfl hp).length_eq]
    obtain ⟨hf, hrs⟩ := forall₂_append_split hl hm
    exact ⟨first, rest, hmm, (hsp first rest hmm).mpr ⟨fields, hs, hf⟩, hrs⟩

section Ctors

variable {found : Option (List Witness)}

variable {look : List Row → Nat → Search (Option (List Witness))} {width : Nat}

/-- The search has shown that the matrix is covered. -/
structure ShownCovered (look : List Row → Nat → Search (Option (List Witness))) (rows : List Row) :
    Prop where
  ne_nil : rows ≠ []
  shown : ∃ width, (∀ row ∈ rows, row.length = width) ∧ Yields (look rows width) none

/-- What an answer says of the constructors: all are shown covered, or one gives the answer. -/
def CtorsAnswer (roots : List Pat) (look : List Row → Nat → Search (Option (List Witness)))
    (rows : List Row) (width : Nat) (sig : List (CtorId × Nat)) (found : Option (List Witness)) :
    Prop :=
  (found = none → ∀ ctor ∈ sig, ShownCovered look (specialize roots rows ctor.1 ctor.2)) ∧
    ∀ witnesses, found = some witnesses → ∃ ctor ∈ sig, ∃ fields,
      Yields (look (specialize roots rows ctor.1 ctor.2) (ctor.2 + width - 1)) (some fields) ∧
        witnesses = .ctor ctor.1 (fields.take ctor.2) :: fields.drop ctor.2

variable {sig : List (CtorId × Nat)}

/-- The constructors are looked at one after the other. -/
theorem uncoveredCtors_spec (hnl : ∀ width, ¬Yields (look [] width) none)
    {covered : List (List Row)}
    (hl : ∀ ctor ∈ sig, ∀ row ∈ specialize roots rows ctor.1 ctor.2,
      row.length = ctor.2 + width - 1)
    (hc : ∀ done ∈ covered, ShownCovered look done)
    (h : Yields (uncoveredCtors roots look rows width sig covered) found) :
    CtorsAnswer roots look rows width sig found := by
  induction sig generalizing covered with
  | nil =>
    obtain rfl := yields_pure.mp h
    exact ⟨by simp, nofun⟩
  | cons ctor sig ih =>
    obtain ⟨id, arity⟩ := ctor
    have hfr := hl (id, arity) (by simp)
    -- What holds of the constructors left holds of all once it holds of the first.
    have hcn (covered : List (List Row)) (hc : ∀ done ∈ covered, ShownCovered look done)
        (hs : ShownCovered look (specialize roots rows id arity))
        (h : Yields (uncoveredCtors roots look rows width sig covered) found) :
        CtorsAnswer roots look rows width ((id, arity) :: sig) found := by
      obtain ⟨hn, hso⟩ := ih (fun ctor hm => hl ctor (mem_cons_of_mem _ hm)) hc h
      refine ⟨fun hf => forall_mem_cons.mpr ⟨hs, hn hf⟩, fun witnesses hf => ?_⟩
      grind
    rw [uncoveredCtors] at h
    split_ifs at h with hd
    · obtain ⟨done, hm, hsm⟩ := any_eq_true.mp hd
      obtain rfl : done = specialize roots rows id arity := of_decide_eq_true hsm
      exact hcn covered hc (hc _ hm) h
    · obtain ⟨fields, hfl, h⟩ := h.of_bind
      cases fields with
      | some fields =>
        obtain rfl := yields_pure.mp h
        refine ⟨nofun, fun witnesses hf => ⟨(id, arity), by simp, fields, hfl, ?_⟩⟩
        exact (Option.some.inj hf).symm
      | none =>
        have hs : ShownCovered look (specialize roots rows id arity) := by
          refine ⟨fun he => ?_, _, hfr, hfl⟩
          rw [he] at hfl
          exact hnl _ hfl
        grind

/-- The values of the columns whose first is built with the constructor. -/
def Built (tables : Tables) (ctor : CtorId) (tys : List Ty) : Set (List Value) :=
  {values | values ∈ ValuesTyped tables tys ∧
    ∃ value rest parts, values = value :: rest ∧ ctor.parts value = some parts}

/-- The values with the first replaced by its parts. -/
def project (ctor : CtorId) : List Value → List Value
  | [] => []
  | value :: values => (ctor.parts value).getD [] ++ values

/-- An answer for the parts is one for the values built with the constructor. -/
theorem settles_built (hrw : Expanded tables roots rows ty tys) {ctor : CtorId} {fieldTys : List Ty}
    (hdi : ctor.distinct = true) (hfl : tables.fieldTypes ty ctor = some fieldTys)
    (hn : ∀ all, ctor = .record all → ∀ row ∈ rows, ∀ name ∈ recordNames roots row, name ∈ all)
    (h : Right tables roots (specialize roots rows ctor fieldTys.length) (fieldTys ++ tys) found) :
    Settles (AllInhabited tables (ty :: tys)) (Built tables ctor (ty :: tys)) (Matched roots rows)
      Described
      (found.map
        fun fields => .ctor ctor (fields.take fieldTys.length) :: fields.drop fieldTys.length) := by
  refine Settles.lift h (project ctor) _ ?_ ?_ ?_ ?_
  · rintro _ ⟨_ | ⟨hv, hvl⟩, value, rest, parts, heq, hp⟩
    obtain ⟨rfl, rfl⟩ := List.cons.inj heq
    simp only [project, hp, Option.getD_some]
    exact rel_append (parts_typed hv hfl hp) hvl
  · rintro _ ⟨_ | ⟨hv, hvl⟩, value, rest, parts, heq, hp⟩
    obtain ⟨rfl, rfl⟩ := List.cons.inj heq
    simp only [project, hp, Option.getD_some]
    exact (matched_specialize hrw hfl hn hv hp).mpr
  · rintro fields _ ⟨_ | ⟨hv, hvl⟩, value, rest, parts, heq, hp⟩
    obtain ⟨rfl, rfl⟩ := List.cons.inj heq
    rintro (_ | ⟨hd, hr⟩)
    simp only [project, hp, Option.getD_some]
    refine ⟨?_, (matched_specialize hrw hfl hn hv hp).mp⟩
    rw [Witness.describes, hp] at hd
    have ha := rel_append (describesAll_iff.mp hd) hr
    simp only [take_append_drop] at ha
    exact ha
  · intro hl
    refine ⟨hl.fields hfl, fun fields values hvl hds => ?_⟩
    obtain ⟨base, hb⟩ := hl ty (.column (by simp))
    have hf := forall₂_take_append _ _ _ hvl
    have hr := forall₂_drop_append _ _ _ hvl
    obtain ⟨value, hv, hp⟩ := exists_of_parts hb hdi hfl hf
    refine ⟨value :: values.drop fieldTys.length, ⟨.cons hv hr, _, _, _, rfl, hp⟩,
      .cons ?_ (forall₂_drop _ hds)⟩
    rw [Witness.describes, hp]
    exact describesAll_iff.mpr (forall₂_take _ hds)

/-- The answer found constructor by constructor is right when the answers for the fields are. -/
theorem right_ctors (hlk : Sound tables roots look) (hrw : Expanded tables roots rows ty tys)
    (hsg : IsSignature tables roots rows ty sig)
    (h : Yields (uncoveredCtors roots look rows (ty :: tys).length sig []) found) :
    Right tables roots rows (ty :: tys) found := by
  have hw (arity : Nat) : arity + (ty :: tys).length - 1 = arity + tys.length := by simp
  have hln : ∀ ctor ∈ sig, ∀ row ∈ specialize roots rows ctor.1 ctor.2,
      row.length = ctor.2 + (ty :: tys).length - 1 := by
    intro ctor hct row hro
    obtain ⟨-, fieldTys, hf, ha⟩ := hsg.fields ctor hct
    rw [← ha] at hro ⊢
    rw [(specialize_typed hrw.typed hf row hro).length_eq, hw, length_append]
  obtain ⟨hn, hs⟩ := uncoveredCtors_spec hlk.nil hln (by simp) h
  cases found with
  | none =>
    refine Settles.of_cases fun values hv => ?_
    rcases hv with _ | ⟨hvl, hv⟩
    obtain ⟨ctor, hct, parts, hp⟩ := hsg.complete _ hvl
    obtain ⟨-, fieldTys, hf, ha⟩ := hsg.fields ctor hct
    obtain ⟨hne, width, hr, hy⟩ := hn rfl ctor hct
    rw [← ha] at hne hr hy
    have ht := specialize_typed hrw.typed hf
    -- The matrix is not empty, so its width is that of the types of the fields.
    obtain ⟨row, hro⟩ := exists_mem_of_ne_nil _ hne
    have hl : width = (fieldTys ++ tys).length := by
      rw [← hr row hro]
      exact (ht row hro).length_eq
    rw [hl] at hy
    have hc := (hlk.right ht hy).covered rfl _ (rel_append (parts_typed hvl hf hp) hv)
    exact (matched_specialize hrw hf (hsg.named ctor hct) hvl hp).mpr hc
  | some witnesses =>
    obtain ⟨ctor, hct, fields, hy, rfl⟩ := hs witnesses rfl
    obtain ⟨hds, fieldTys, hf, ha⟩ := hsg.fields ctor hct
    rw [← ha] at hy ⊢
    rw [hw, ← length_append] at hy
    have hrg := hlk.right (specialize_typed hrw.typed hf) hy
    refine Settles.of_case (settles_built hrw hds hf (hsg.named ctor hct) hrg) (fun values hv =>
        hv.1) ?_
    rintro values (_ | ⟨hvl, hv⟩) (_ | ⟨hd, hrs⟩)
    refine ⟨.cons hvl hv, ?_⟩
    rw [Witness.describes] at hd
    grind

end Ctors

section Ints

variable {found : Option (List Witness)} {interval : Range}

variable {look : List Row → Nat → Search (Option (List Witness))}

theorem shape_of_intRange {lo hi : Int64} (h : (Pat.intRange lo hi).hasType tables ty = true) :
    tables.shape ty = .int := by
  rw [Pat.hasType] at h
  cases hs : tables.shape ty <;> simp [hs] at h ⊢

theorem first_of_int (hr : Expanded tables roots rows ty tys) (hs : tables.shape ty = .int)
    {first : Place} {rest : Row} (hrw : first :: rest ∈ rows) :
    first.deref roots = .wild ∨ ∃ lo hi : Int64, first.deref roots = .intRange lo hi ∧ lo ≤ hi := by
  have hc := hr.counts first rest hrw
  obtain ⟨ht, -⟩ := typed_first hr.typed hrw
  cases hp : first.deref roots with
  | wild => exact .inl rfl
  | or alts => exact absurd hp (hr.not_or first rest hrw alts)
  | lit => simp [hp, coversNothing] at hc
  | ctor id args =>
    rw [hp, hasType_pat_ctor_iff] at ht
    obtain ⟨-, fieldTys, hf, -⟩ := ht
    simp [Tables.fieldTypes, hs] at hf
  | intRange lo hi =>
    simpa [hp, coversNothing] using hc

theorem eq_int_of_hasType {value : Value} (hs : tables.shape ty = .int)
    (h : value.hasType tables ty = true) : ∃ n, value = .int n := by
  cases value with
  | int n => exact ⟨n, rfl⟩
  | other n => simp [Value.hasType, hs] at h
  | ctor id args =>
    obtain ⟨-, fieldTys, hf, -⟩ := hasType_ctor_iff.mp h
    simp [Tables.fieldTypes, hs] at hf

theorem mem_ranges {range : Range} :
    range ∈ sortRanges (rows.filterMap (rangeOf roots)) ↔
      ∃ first rest, ∃ lo hi : Int64, first :: rest ∈ rows ∧ first.deref roots = .intRange lo hi ∧
        lo ≤ hi ∧ range = (lo.toInt, hi.toInt) := by
  rw [mem_sortRanges, mem_filterMap_first rfl]
  constructor
  · rintro ⟨first, rest, hr, heq⟩
    rw [rangeOf] at heq
    grind
  · rintro ⟨first, rest, lo, hi, hr, hp, hle, rfl⟩
    exact ⟨first, rest, hr, by simp [rangeOf, hp, hle]⟩

theorem matches_intRange_iff {lo hi n : Int64} :
    (Pat.intRange lo hi).matches (.int n) = true ↔ Range.Has (lo.toInt, hi.toInt) n.toInt := by
  simp [Pat.matches, Range.Has, Int64.le_iff_toInt_le]

/-- With a gap, the rows that do not test the column decide alone. -/
theorem right_gap (hr : Expanded tables roots rows ty tys) (hs : tables.shape ty = .int)
    (hgp : firstGap Int64.minValue.toInt (sortRanges (rows.filterMap (rangeOf roots))) <
      Int64.maxValue.toInt + 1) (h : Right tables roots (defaultRows roots rows) tys found) :
    Right tables roots rows (ty :: tys)
      (found.map (.int (outside (sortRanges (rows.filterMap (rangeOf roots)))) :: ·)) := by
  have hsr := pairwise_sortRanges (rows.filterMap (rangeOf roots))
  obtain ⟨hm, -, ho⟩ := firstGap_spec hsr Int64.minValue.toInt
  have hf : Int64.minValue.toInt = -2 ^ 63 := by decide
  have hl : Int64.maxValue.toInt = 2 ^ 63 - 1 := by decide
  generalize firstGap Int64.minValue.toInt (sortRanges (rows.filterMap (rangeOf roots))) = gap
    at hgp hm ho
  have hg : (Int64.ofInt gap).toInt = gap := Int64.toInt_ofInt_of_le (by omega) (by omega)
  have hfr := outside_spec hsr ⟨.ofInt gap, by rwa [hg]⟩
  generalize outside (sortRanges (rows.filterMap (rangeOf roots))) = shown at hfr
  refine right_default (.int shown) (fun _ => ⟨.int shown, by simp [Witness.describes],
    by simp [Value.hasType, hs]⟩) (fun first rest hrw hw value hv hd => ?_) h
  obtain ⟨n, rfl⟩ := eq_int_of_hasType hs hv
  obtain rfl : shown = n := by simpa [Witness.describes] using hd
  rcases first_of_int hr hs hrw with hp | ⟨lo, hi, hp, hle⟩
  · exact absurd hp hw
  · rw [hp, ← Bool.not_eq_true, matches_intRange_iff]
    exact hfr _ (mem_ranges.mpr ⟨first, rest, lo, hi, hrw, hp, hle, rfl⟩)

theorem mem_keptRows {row : Row} :
    row ∈ keptRows roots rows interval ↔
      ∃ first, first :: row ∈ rows ∧
        (first.deref roots = .wild ∨
          ∃ lo hi : Int64, first.deref roots = .intRange lo hi ∧
            Range.holds (lo.toInt, hi.toInt) interval = true) := by
  rw [keptRows, mem_filterMap_first rfl]
  grind

theorem keptRows_typed (hr : Expanded tables roots rows ty tys) (interval : Range) :
    RowsTyped tables roots (keptRows roots rows interval) tys := by
  intro row hrw
  obtain ⟨first, hm, -⟩ := mem_keptRows.mp hrw
  exact (typed_first hr.typed hm).2

/-- The rows match an integer of an interval when the rows kept for it match the other values. -/
theorem matched_keptRows (hrw : Expanded tables roots rows ty tys) (hs : tables.shape ty = .int)
    (hin : interval ∈ intervals (sortRanges (rows.filterMap (rangeOf roots)))) {n : Int64}
    (hn : interval.Has n.toInt) {values : List Value} :
    .int n :: values ∈ Matched roots rows ↔
      values ∈ Matched roots (keptRows roots rows interval) := by
  obtain ⟨-, hh⟩ := interval_spec hin
  rw [matched_cons]
  constructor
  · rintro ⟨first, rest, hro, hf, hr⟩
    refine ⟨rest, mem_keptRows.mpr ⟨first, hro, ?_⟩, hr⟩
    rcases first_of_int hrw hs hro with hp | ⟨lo, hi, hp, hle⟩
    · exact .inl hp
    · refine .inr ⟨lo, hi, hp, ?_⟩
      rw [hp, matches_intRange_iff] at hf
      exact (hh _ (mem_ranges.mpr ⟨first, rest, lo, hi, hro, hp, hle, rfl⟩) _ hn).mpr hf
  · rintro ⟨rest, hr, hm⟩
    obtain ⟨first, hro, hf⟩ := mem_keptRows.mp hr
    refine ⟨first, rest, hro, ?_, hm⟩
    rcases first_of_int hrw hs hro with hw | ⟨lo, hi, hp, hle⟩
    · rw [hw]
      rfl
    · rcases hf with hw | ⟨lo', hi', hp', hk⟩
      · rw [hw]
        rfl
      · obtain ⟨rfl, rfl⟩ := Pat.intRange.inj (hp.symm.trans hp')
        rw [hp, matches_intRange_iff]
        exact (hh _ (mem_ranges.mpr ⟨first, rest, lo, hi, hro, hp, hle, rfl⟩) _ hn).mp hk

theorem uncoveredIntervals_spec {width : Nat} {intervals : List Range}
    (h : Yields (uncoveredIntervals roots look rows width intervals) found) :
    (found = none → ∀ interval ∈ intervals,
      Yields (look (keptRows roots rows interval) (width - 1)) none) ∧
    ∀ witnesses, found = some witnesses → ∃ interval ∈ intervals, ∃ rest,
      Yields (look (keptRows roots rows interval) (width - 1)) (some rest) ∧
        witnesses = .int (.ofInt (max interval.1 (min 0 interval.2))) :: rest := by
  induction intervals with
  | nil =>
    obtain rfl := yields_pure.mp h
    exact ⟨by simp, nofun⟩
  | cons interval intervals ih =>
    obtain ⟨rest, hr, h⟩ := h.of_bind
    cases rest with
    | some rest =>
      obtain rfl := yields_pure.mp h
      grind
    | none => grind

theorem cut_bounds {cut : Int} (h : cut ∈ cuts (sortRanges (rows.filterMap (rangeOf roots)))) :
    -2 ^ 63 ≤ cut ∧ cut ≤ 2 ^ 63 := by
  obtain ⟨range, hr, hc⟩ := mem_cuts.mp h
  obtain ⟨first, rest, lo, hi, -, -, -, rfl⟩ := mem_ranges.mp hr
  have hlo := lo.le_toInt
  have hlo' := lo.toInt_lt
  have hhi := hi.le_toInt
  have hhi' := hi.toInt_lt
  omega

/-- Without a gap every integer is in an interval. -/
theorem exists_interval_of_full
    (hf : ¬firstGap Int64.minValue.toInt (sortRanges (rows.filterMap (rangeOf roots))) <
      Int64.maxValue.toInt + 1) (n : Int64) :
    ∃ interval ∈ intervals (sortRanges (rows.filterMap (rangeOf roots))), interval.Has n.toInt := by
  obtain ⟨-, hin, -⟩ := firstGap_spec (pairwise_sortRanges (rows.filterMap (rangeOf roots)))
    Int64.minValue.toInt
  have hmn : Int64.minValue.toInt = -2 ^ 63 := by decide
  have hm : Int64.maxValue.toInt = 2 ^ 63 - 1 := by decide
  have hn := n.le_toInt
  have hn' := n.toInt_lt
  obtain ⟨low, hlo, hlw, -⟩ := hin (-2 ^ 63) (by omega) (by omega)
  obtain ⟨hi, hhi, -, hhg⟩ := hin (2 ^ 63 - 1) (by omega) (by omega)
  have hl : low.1 ∈ cuts (sortRanges (rows.filterMap (rangeOf roots))) :=
    mem_cuts.mpr ⟨low, hlo, .inl rfl⟩
  have hh : hi.2 + 1 ∈ cuts (sortRanges (rows.filterMap (rangeOf roots))) :=
    mem_cuts.mpr ⟨hi, hhi, .inr rfl⟩
  exact exists_interval hl hh (by omega) (by omega)

/-- The values of the columns whose first is an integer of the interval. -/
def InInterval (tables : Tables) (interval : Range) (tys : List Ty) : Set (List Value) :=
  {values | values ∈ ValuesTyped tables tys ∧
    ∃ n rest, values = .int n :: rest ∧ interval.Has n.toInt}

theorem right_interval (hr : Expanded tables roots rows ty tys) (hs : tables.shape ty = .int)
    (hi : interval ∈ intervals (sortRanges (rows.filterMap (rangeOf roots))))
    {rest : List Witness} (h : Right tables roots (keptRows roots rows interval) tys (some rest)) :
    Right tables roots rows (ty :: tys)
      (some (.int (.ofInt (max interval.1 (min 0 interval.2))) :: rest)) := by
  obtain ⟨hle, -⟩ := interval_spec hi
  obtain ⟨hf, hls⟩ := cuts_of_interval hi
  have hmn := (cut_bounds hf).1
  have hm := (cut_bounds hls).2
  have hsh : interval.Has (Int64.ofInt (max interval.1 (min 0 interval.2))).toInt := by
    rw [Int64.toInt_ofInt_of_le (by omega) (by omega)]
    constructor <;> omega
  generalize Int64.ofInt (max interval.1 (min 0 interval.2)) = shown at hsh
  have hc : Settles (AllInhabited tables (ty :: tys)) (InInterval tables interval (ty :: tys))
      (Matched roots rows) Described (some (.int shown :: rest)) := by
    refine Settles.lift h List.tail (.int shown :: ·) ?_ ?_ ?_ ?_
    · rintro _ ⟨_ | ⟨-, hv⟩, -⟩
      exact hv
    · rintro _ ⟨-, n, values, rfl, hn⟩
      exact (matched_keptRows hr hs hi hn).mpr
    · rintro witnesses _ ⟨-, n, values, rfl, hn⟩ (_ | ⟨-, hd⟩)
      exact ⟨hd, (matched_keptRows hr hs hi hn).mp⟩
    · intro hl
      refine ⟨hl.tail, fun witnesses values hv hd => ⟨.int shown :: values,
        ⟨.cons ?_ hv, shown, values, rfl, hsh⟩, .cons ?_ hd⟩⟩
      · simp [Value.hasType, hs]
      · simp [Witness.describes]
  refine hc.of_case (fun values h => h.1) ?_
  rintro _ (_ | ⟨hvl, hv⟩) (_ | ⟨hds, -⟩)
  obtain ⟨n, rfl⟩ := eq_int_of_hasType hs hvl
  obtain rfl : shown = n := by simpa [Witness.describes] using hds
  exact ⟨.cons hvl hv, shown, _, rfl, hsh⟩

/-- The answer for a column of integers is right when the answers for its parts are. -/
theorem right_intColumn (hl : Sound tables roots look)
    (hrw : Expanded tables roots rows ty tys) (hs : tables.shape ty = .int)
    (h : Yields (uncoveredIntColumn roots look rows (ty :: tys).length) found) :
    Right tables roots rows (ty :: tys) found := by
  rw [uncoveredIntColumn] at h
  simp only [length_cons, Nat.add_sub_cancel] at h
  split_ifs at h with hg
  · obtain ⟨rest, hrs, h⟩ := h.of_bind
    obtain rfl := yields_pure.mp h
    exact right_gap hrw hs hg (hl.right (defaultRows_typed hrw.typed) hrs)
  · obtain ⟨hnn, hsm⟩ := uncoveredIntervals_spec h
    cases found with
    | some witnesses =>
      obtain ⟨interval, hi, rest, hy, rfl⟩ := hsm witnesses rfl
      exact right_interval hrw hs hi (hl.right (keptRows_typed hrw interval) hy)
    | none =>
      refine Settles.of_cases ?_
      rintro _ (_ | ⟨hv, hvl⟩)
      obtain ⟨n, rfl⟩ := eq_int_of_hasType hs hv
      obtain ⟨interval, hi, hn⟩ := exists_interval_of_full hg n
      have hr := hl.right (keptRows_typed hrw interval) (hnn rfl interval hi)
      exact (matched_keptRows hrw hs hi hn).mpr (hr.covered rfl _ hvl)

end Ints

section Column

variable {look : List Row → Nat → Search (Option (List Witness))}

theorem headOf_eq_ctor {row : Row} {id : CtorId} (h : headOf roots row = .ctor id) :
    ∃ first rest args, row = first :: rest ∧ first.deref roots = .ctor id args := by
  cases row with
  | nil => cases h
  | cons first rest =>
    rw [headOf] at h
    grind

theorem columnHead_eq_ctor {id : CtorId} (h : columnHead roots rows = .ctor id) :
    HasCtor roots rows id := by
  unfold columnHead at h
  split at h
  · next found hf =>
    obtain rfl := Head.ctor.inj h
    obtain ⟨row, hr, hh⟩ := exists_of_findSome?_eq_some hf
    split at hh
    · next id hid =>
      obtain rfl := Option.some.inj hh
      obtain ⟨first, rest, args, rfl, hp⟩ := headOf_eq_ctor hid
      exact ⟨first, rest, args, hr, hp⟩
    · cases hh
    · cases hh
  · split_ifs at h

theorem headOf_eq_int {row : Row} (h : headOf roots row = .int) :
    ∃ first rest, ∃ lo hi : Int64, row = first :: rest ∧ first.deref roots = .intRange lo hi := by
  cases row with
  | nil => cases h
  | cons first rest =>
    rw [headOf] at h
    grind

theorem columnHead_eq_int (h : columnHead roots rows = .int) :
    ∃ first rest, ∃ lo hi : Int64, first :: rest ∈ rows ∧ first.deref roots = .intRange lo hi := by
  unfold columnHead at h
  split at h
  · cases h
  · split_ifs at h with ha
    obtain ⟨row, hr, hh⟩ := any_eq_true.mp ha
    obtain ⟨first, rest, lo, hi, rfl, hp⟩ := headOf_eq_int (of_decide_eq_true hh)
    exact ⟨first, rest, lo, hi, hr, hp⟩

/-- When no row tests the column, it holds wildcards only. -/
theorem wild_of_untested (hr : Expanded tables roots rows ty tys)
    (h : columnHead roots rows = .untested) {first : Place} {rest : Row}
    (hrw : first :: rest ∈ rows) : first.deref roots = .wild := by
  unfold columnHead at h
  split at h
  · cases h
  · next hn =>
    split_ifs at h with ha
    have hh := findSome?_eq_none_iff.mp hn _ hrw
    have hin : headOf roots (first :: rest) ≠ .int := fun hin =>
      ha (any_eq_true.mpr ⟨_, hrw, decide_eq_true hin⟩)
    have hc := hr.counts first rest hrw
    rw [headOf] at hh hin
    cases hp : first.deref roots with
    | wild => rfl
    | or alts => exact absurd hp (hr.not_or first rest hrw alts)
    | lit => simp [hp, coversNothing] at hc
    | ctor id args => simp [hp] at hh
    | intRange lo hi => simp [hp] at hin

theorem right_column (hl : Sound tables roots look) (hr : Expanded tables roots rows ty tys)
    {found : Option (List Witness)}
    (h : Yields (uncoveredColumn roots tables.enums look rows (ty :: tys).length) found) :
    Right tables roots rows (ty :: tys) found := by
  rw [uncoveredColumn] at h
  cases hh : columnHead roots rows with
  | ctor id =>
    obtain ⟨sig, hsg, hsp⟩ := signature_spec hr.typed (columnHead_eq_ctor hh)
    simp only [hh, hsg] at h
    exact right_ctors hl hr hsp h
  | int =>
    obtain ⟨first, rest, lo, hi, hrw, hp⟩ := columnHead_eq_int hh
    have hs : tables.shape ty = .int := shape_of_intRange (hp ▸ (typed_first hr.typed hrw).1)
    simp only [hh] at h
    exact right_intColumn hl hr hs h
  | untested =>
    simp only [hh, length_cons, Nat.add_sub_cancel] at h
    obtain ⟨rest, hrs, h⟩ := h.of_bind
    obtain rfl := yields_pure.mp h
    refine right_default .any (fun hlv => ?_) (fun first rest hrw hw => ?_)
      (hl.right (defaultRows_typed hr.typed) hrs)
    · obtain ⟨value, hv⟩ := hlv ty (.column (by simp))
      exact ⟨value, rfl, hv⟩
    · exact absurd (wild_of_untested hr hh hrw) hw

end Column

end Steps

/-! ### The whole search -/

section Whole

variable {levels : Nat} {rows : List Row} {found : Option (List Witness)} {tys : List Ty}
  {pats : List Pat} {ty : Ty} {value : Value}

variable {tables : Tables} {roots : List Pat} {enums : TypeRef → Option EnumInfo}

/-- What a search that does not give up does. -/
theorem Yields.of_uncovered {width : Nat}
    (h : Yields (uncovered roots enums levels rows width) found) :
    countedRows roots rows = [] ∧ found = some (List.replicate width .any) ∨
      countedRows roots rows ≠ [] ∧ width = 0 ∧ found = none ∨
      countedRows roots rows ≠ [] ∧ width ≠ 0 ∧ ∃ left, levels = left + 1 ∧
        ((∃ row ∈ countedRows roots rows, ∀ place ∈ row, (place.deref roots).isWild = true) ∧
            found = none ∨
          ∃ found', Yields (uncoveredColumn roots enums (uncovered roots enums left)
              (expandRows roots ((countedRows roots rows).map
                (swapFirst (splitColumn roots (countedRows roots rows))))) width) found' ∧
            found = found'.map (swapFirst (splitColumn roots (countedRows roots rows)))) := by
  rw [uncovered.eq_def] at h
  simp only at h
  generalize countedRows roots rows = counted at h ⊢
  by_cases he : counted = []
  · rw [if_pos (isEmpty_iff.mpr he)] at h
    exact .inl ⟨he, (yields_pure.mp h).symm⟩
  rw [if_neg fun hn => he (isEmpty_iff.mp hn)] at h
  by_cases hw : width = 0
  · rw [if_pos hw] at h
    exact .inr (.inl ⟨he, hw, (yields_pure.mp h).symm⟩)
  rw [if_neg hw] at h
  refine .inr (.inr ⟨he, hw, ?_⟩)
  obtain ⟨-, -, h⟩ := h.of_bind
  obtain ⟨cs, -, h⟩ := h.of_bind
  by_cases hc : maxCells < cs
  · rw [if_pos hc] at h
    obtain ⟨_, ht, -⟩ := h.of_bind
    exact absurd ht not_yields_throw
  rw [if_neg hc] at h
  cases levels with
  | zero => exact absurd h not_yields_throw
  | succ left =>
    refine ⟨left, rfl, ?_⟩
    split_ifs at h with hwl
    · obtain ⟨row, hr, ha⟩ := any_eq_true.mp hwl
      exact .inl ⟨⟨row, hr, all_eq_true.mp ha⟩, (yields_pure.mp h).symm⟩
    · obtain ⟨found', hf, h⟩ := h.of_bind
      exact .inr ⟨found', hf, (yields_pure.mp h).symm⟩

theorem not_yields_nil {width : Nat} :
    ¬Yields (uncovered roots enums levels [] width) none := by
  intro h
  rcases h.of_uncovered with ⟨-, hf⟩ | ⟨hne, -⟩ | ⟨hne, -⟩
  · cases hf
  · exact hne rfl
  · exact hne rfl

theorem splitColumn_lt (ht : RowsTyped tables roots rows tys) (hne : rows ≠ [])
    (hw : tys.length ≠ 0) : splitColumn roots rows < tys.length := by
  cases rows with
  | nil => exact absurd rfl hne
  | cons row rows =>
    rw [splitColumn, ← (ht row (by simp)).length_eq]
    rw [← (ht row (by simp)).length_eq] at hw
    cases hi : row.findIdx? fun place => !(place.deref roots).isWild with
    | none => simpa using Nat.pos_of_ne_zero hw
    | some column => exact (findIdx?_eq_some_iff_findIdx_eq.mp hi).1

theorem right_level
    (hlf : ∀ left, levels = left + 1 → Sound tables roots (uncovered roots tables.enums left))
    (ht : RowsTyped tables roots rows tys)
    (h : Yields (uncovered roots tables.enums levels rows tys.length) found) :
    Right tables roots rows tys found := by
  have hc : RowsTyped tables roots (countedRows roots rows) tys :=
    fun row hr => ht row (mem_filter.mp hr).1
  refine right_counted ?_
  rcases h.of_uncovered with ⟨hn, rfl⟩ | ⟨hne, hw, rfl⟩ |
    ⟨hne, hw, left, hlv, ⟨⟨row, hr, hwl⟩, rfl⟩ | ⟨found', hf, rfl⟩⟩
  · rw [hn]
    exact right_nil
  · obtain ⟨row, hr⟩ := exists_mem_of_ne_nil _ hne
    refine right_of_wild hc hr fun place hp => ?_
    have hl : row.length = tys.length := (hc row hr).length_eq
    rw [length_eq_zero_iff.mp (hl.trans hw)] at hp
    cases hp
  · exact right_of_wild hc hr hwl
  · have hcl := splitColumn_lt hc hne hw
    refine right_swap hcl hc ?_
    generalize splitColumn roots (countedRows roots rows) = column at hcl hf ⊢
    have hsw : RowsTyped tables roots ((countedRows roots rows).map (swapFirst column))
        (swapFirst column tys) := by
      intro row hr
      obtain ⟨row, hm, rfl⟩ := mem_map.mp hr
      exact forall₂_swapFirst (hc row hm) column
    rw [← length_swapFirst column tys] at hf hw
    cases hs : swapFirst column tys with
    | nil =>
      rw [hs] at hw
      exact absurd rfl hw
    | cons ty rest =>
      rw [hs] at hf hsw
      exact right_expand (right_column (hlf left hlv) (expanded_expand hsw) hf)

theorem right_uncovered (levels : Nat) (ht : RowsTyped tables roots rows tys)
    (h : Yields (uncovered roots tables.enums levels rows tys.length) found) :
    Right tables roots rows tys found := by
  induction levels generalizing rows tys found with
  | zero => exact right_level (fun left hl => absurd hl (by omega)) ht h
  | succ left ih =>
    refine right_level (fun left' hl => ?_) ht h
    obtain rfl : left = left' := Nat.succ.inj hl
    exact ⟨ih, fun _ => not_yields_nil⟩

/-! ### Matches that are accepted -/

theorem typed_oneColumn (ht : ∀ pat ∈ pats, pat.hasType tables ty = true) :
    RowsTyped tables pats (oneColumn pats) [ty] := by
  intro row hr
  obtain ⟨i, hi, rfl⟩ := mem_map.mp hr
  have hlt : i < pats.length := mem_range.mp hi
  refine .cons ?_ .nil
  have hd : (Place.inside i []).deref pats = pats[i] := by simp [Place.deref, hlt]
  rw [hd]
  exact ht _ (getElem_mem hlt)

theorem exists_pat_of_matched (h : [value] ∈ Matched pats (oneColumn pats)) :
    ∃ pat ∈ pats, pat.matches value = true := by
  obtain ⟨row, hr, hm⟩ := h
  obtain ⟨i, hi, rfl⟩ := mem_map.mp hr
  have hlt : i < pats.length := mem_range.mp hi
  have hd : (Place.inside i []).deref pats = pats[i] := by simp [Place.deref, hlt]
  rw [RowMatches, forall₂_cons, hd] at hm
  exact ⟨_, getElem_mem hlt, hm.1⟩

/-- Patterns that the search says cover their type match each of its values. -/
theorem matches_of_coverTogether {cs : Nat} (ht : ∀ pat ∈ pats, pat.hasType tables ty = true)
    (h : (coverTogether tables.enums pats cs).1 = .ok true)
    (hv : value.hasType tables ty = true) : ∃ pat ∈ pats, pat.matches value = true := by
  have hy : Yields (covers pats tables.enums (oneColumn pats) 1) true := ⟨cs, _, Prod.ext h rfl⟩
  obtain ⟨found, hf, hy⟩ := hy.of_bind
  have hn : found = none := Option.isNone_iff_eq_none.mp (yields_pure.mp hy)
  have hr := right_uncovered (maxDepth + 1) (typed_oneColumn ht) hf
  exact exists_pat_of_matched (hr.covered hn _ (.cons hv .nil))

theorem not_hasType_never : value.hasType tables .never = false := by
  cases value <;> simp [Value.hasType, Tables.shape, Tables.fieldTypes]

/-- A match without a report has an arm without a guard for every value. -/
theorem exists_arm_of_checkExhaustiveness {missingDescription : List Pat → Ty → String}
    {arms : List MatchArm} (ht : ∀ pat ∈ pats, pat.hasType tables ty = true)
    (h : checkExhaustiveness tables.enums missingDescription arms pats ty = none)
    (hv : value.hasType tables ty = true) :
    ∃ arm ∈ arms.zip pats, arm.1.guard = false ∧ arm.2.matches value = true := by
  have hu : ∀ pat ∈ unguarded arms pats, ∃ arm ∈ arms.zip pats, arm.1.guard = false ∧
      arm.2 = pat := by
    intro pat hp
    obtain ⟨arm, ha, heq⟩ := mem_filterMap.mp hp
    grind
  unfold checkExhaustiveness at h
  by_cases hn : (arms.isEmpty && isUninhabited ty) = true
  · rw [Bool.and_eq_true] at hn
    cases ty <;> simp [isUninhabited] at hn
    rw [not_hasType_never] at hv
    cases hv
  · rw [if_neg hn] at h
    split at h
    · next hc =>
      obtain ⟨pat, hp, hm⟩ := matches_of_coverTogether (fun pat hp => by
        obtain ⟨arm, ha, -, rfl⟩ := hu pat hp
        exact ht _ (of_mem_zip ha).2) hc hv
      grind
    · cases h
    · cases h

end Whole

/-- A search that does not give up is exact. Of rows and columns that are well typed, with a value
in every type the search can come to, it answers `none` exactly when every row of values is matched
by a row, and what it gives otherwise stands for values that no row matches. So a match without a
report has an arm without a guard for every value of the scrutinee's type. -/
theorem uncovered_exact (tables : Tables) :
    (∀ (roots : List Pat) (rows : List Row) (tys : List Ty) (levels cells cells' : Nat)
      (found : Option (List Witness)), (∀ row ∈ rows, RowTyped tables roots row tys) →
      AllInhabited tables tys →
      (uncovered roots tables.enums levels rows tys.length).run.run cells = (.ok found, cells') →
        (found = none ↔
          ∀ values ∈ ValuesTyped tables tys, ∃ row ∈ rows, RowMatches roots row values) ∧
        ∀ witnesses, found = some witnesses → ∀ values ∈ ValuesTyped tables tys,
          values ∈ Described witnesses → ∀ row ∈ rows, ¬RowMatches roots row values) ∧
    ∀ (missingDescription : List Pat → Ty → String) (arms : List MatchArm) (pats : List Pat)
      (ty : Ty),
      (∀ pat ∈ pats, pat.hasType tables ty = true) →
      checkExhaustiveness tables.enums missingDescription arms pats ty = none →
      ∀ value : Value, value.hasType tables ty = true →
        ∃ arm ∈ arms.zip pats, arm.1.guard = false ∧ arm.2.matches value = true := by
  constructor
  · intro roots rows tys levels cells cells' found ht hi hrn
    have hr := right_uncovered levels ht ⟨cells, cells', hrn⟩
    refine ⟨hr.iff hi, fun witnesses hf values hvl hd row hrw hm => ?_⟩
    exact hr.missed witnesses hf values hvl hd ⟨row, hrw, hm⟩
  · intro missingDescription arms pats ty ht hn value hv
    exact exists_arm_of_checkExhaustiveness ht hn hv

/-- Tables without a declared type. -/
def noTypes : Tables where
  enums _ := none
  records _ := none

/-- A pair, and a boolean. -/
def pairTys : List Ty := [.tuple [.bool, .int], .bool]

theorem allInhabited_pairTys : AllInhabited noTypes pairTys := by
  intro ty hty
  have hp : ty = .tuple [.bool, .int] ∨ ty = .bool ∨ ty = .int := by
    induction hty with
    | column hm => exact (mem_pair.mp hm).imp_right .inl
    | @field ty fieldTy id fieldTys _ hf hm ih =>
      rcases ih with rfl | rfl | rfl <;>
        cases id <;> simp [Tables.fieldTypes, Tables.shape] at hf <;> subst hf
      · exact .inr (mem_pair.mp hm)
      · cases hm
  rcases hp with rfl | rfl | rfl
  · exact ⟨.ctor .tuple [.ctor (.bool true) [], .int 0], rfl⟩
  · exact ⟨.ctor (.bool true) [], rfl⟩
  · exact ⟨.int 0, rfl⟩

/-- The patterns `(true, _)`, `true | false`, `_` and `true`. -/
def pairPats : List Pat :=
  [.ctor .tuple [.ctor (.bool true) [], .wild], .or [.ctor (.bool true) [], .ctor (.bool false) []],
    .wild, .ctor (.bool true) []]

/-- The row of two of these patterns. -/
def pairRow (first second : Nat) : Row := [.inside first [], .inside second []]

/-- The rows `(true, _), true | false` and `_, true` leave `(false, 5), false` out; with `_` for the
first pattern and `true | false` for the second, every row of values is matched.  An arm with a
guard is none for a value. -/
theorem uncovered_exact_pairs :
    (∀ row ∈ [pairRow 0 1, pairRow 2 3],
      ¬RowMatches pairPats row [.ctor .tuple [.ctor (.bool false) [], .int 5],
        .ctor (.bool false) []]) ∧
    (∀ values ∈ ValuesTyped noTypes pairTys,
      ∃ row ∈ [pairRow 0 1, pairRow 2 1], RowMatches pairPats row values) ∧
    ∃ arm ∈ [MatchArm.mk true, ⟨false⟩].zip [Pat.wild, .wild],
      arm.1.guard = false ∧ arm.2.matches (.int 5) = true := by
  have ht (i j : Nat) (hi : i = 0 ∨ i = 2) (hj : j = 1 ∨ j = 3) :
      RowTyped noTypes pairPats (pairRow i j) pairTys := by
    rcases hi with rfl | rfl <;> rcases hj with rfl | rfl <;> exact .cons rfl (.cons rfl .nil)
  refine ⟨?_, ?_, ?_⟩
  · have hr : (uncovered pairPats noTypes.enums 9 [pairRow 0 1, pairRow 2 3] 2).run.run 0 =
        (.ok (some [.ctor .tuple [.ctor (.bool false) [], .any], .ctor (.bool false) []]), 20) :=
      rfl
    exact ((uncovered_exact noTypes).1 _ _ pairTys 9 0 20 _
      (by simp [ht]) allInhabited_pairTys hr).2 _ rfl _
      (.cons rfl (.cons rfl .nil)) (.cons rfl (.cons rfl .nil))
  · have hr : (uncovered pairPats noTypes.enums 9 [pairRow 0 1, pairRow 2 1] 2).run.run 0 =
        (.ok none, 19) := rfl
    exact ((uncovered_exact noTypes).1 _ _ pairTys 9 0 19 _
      (by simp [ht]) allInhabited_pairTys hr).1.mp rfl
  · exact (uncovered_exact noTypes).2 (fun _ _ => "") _ _ .int (by simp [Pat.hasType]) rfl
      (.int 5) rfl

end Silt.Typechecker
