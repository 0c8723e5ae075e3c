import Mathlib.Data.List.Perm.Subperm

/-!
# Lists in the order of their keys

Lists of items in strictly ascending order of a key, read as finite maps: what a list has of a key
(`Keys.look`).  An item is found by halving (`Keys.search`); two lists are walked side by side
(`Keys.sideBySide`); a list in any order is sorted, and of the items of one key one stays
(`Keys.dedup`).  Keys are any type with a total preorder: two keys that compare equal are the
same key and need not be the same.

## Main results

* `Keys.search_spec` : halving finds the item of a key, or where it would go.
* `Keys.sideBySide_spec` : what is made of two lists walked side by side.
* `Keys.dedup_sort_spec` : one item of each key stays.
-/

namespace Silt

open List Option

open Std

/-- How to read the key and the value of an item. -/
structure Keys (T K W : Type) where
  key : T → K
  val : T → W

namespace Keys

variable {T K W : Type} [Ord K] (ks : Keys T K W)

variable {items xs ys : List T} {k : K} {t : T}

/-- The items are in the order of their keys, each key once. -/
def Ascending (items : List T) : Prop :=
  items.Pairwise fun a b => compare (ks.key a) (ks.key b) = .lt

/-- The value of the first item of a key. -/
def look (items : List T) (k : K) : Option W :=
  (items.find? fun t => compare (ks.key t) k == .eq).map ks.val

/-- A function from keys to values with the value of a key replaced. -/
def put (k : K) (v : W) (f : K → Option W) : K → Option W :=
  fun k' => if compare k k' = .eq then some v else f k'

/-- A function from keys to values without a key. -/
def drop (k : K) (f : K → Option W) : K → Option W :=
  fun k' => if compare k k' = .eq then none else f k'

variable {ks}

@[simp]
theorem look_nil (k : K) : ks.look [] k = none := rfl

theorem look_cons (t : T) (items : List T) :
    ks.look (t :: items) = put (ks.key t) (ks.val t) (ks.look items) := by
  funext k
  rw [look, put, find?_cons]
  cases h : compare (ks.key t) k <;> simp [look]

theorem look_append (xs ys : List T) (k : K) :
    ks.look (xs ++ ys) k = (ks.look xs k).or (ks.look ys k) := by
  rw [look, find?_append, look, look]
  cases xs.find? fun t => compare (ks.key t) k == .eq <;> rfl

theorem look_eq_none (h : ∀ t ∈ items, compare (ks.key t) k ≠ .eq) : ks.look items k = none := by
  rw [look, find?_eq_none.mpr fun t ht => by simpa using h t ht]
  rfl

theorem exists_of_look {v : W} (h : ks.look items k = some v) :
    ∃ t ∈ items, compare (ks.key t) k = .eq ∧ ks.val t = v := by
  obtain ⟨t, ht, hv⟩ := map_eq_some_iff.mp h
  grind

variable (ks) in
/-- Items put one after another: of each key the last one is there. -/
theorem foldl_put (items : List T) (f : K → Option W) (k : K) :
    (items.foldl (fun f t => put (ks.key t) (ks.val t) f) f) k =
      (ks.look items.reverse k).or (f k) := by
  induction items generalizing f with
  | nil => rfl
  | cons t items ih =>
    rw [List.foldl_cons, ih, List.reverse_cons, look_append, Option.or_assoc, look_cons, put, put]
    split_ifs <;> rfl

/-! ### Parts of a list -/

theorem ascending_append :
    ks.Ascending (xs ++ ys) ↔ ks.Ascending xs ∧ ks.Ascending ys ∧
      ∀ a ∈ xs, ∀ b ∈ ys, compare (ks.key a) (ks.key b) = .lt :=
  pairwise_append

theorem ascending_cons :
    ks.Ascending (t :: items) ↔
      (∀ b ∈ items, compare (ks.key t) (ks.key b) = .lt) ∧ ks.Ascending items :=
  pairwise_cons

theorem ascending_without (h : ks.Ascending (xs ++ t :: ys)) : ks.Ascending (xs ++ ys) :=
  h.sublist (List.Sublist.append_left (sublist_cons_self t ys) xs)

theorem Ascending.filter (h : ks.Ascending items) (p : T → Bool) : ks.Ascending (items.filter p) :=
  List.Pairwise.filter p h

theorem ascending_replace {u : T} (h : ks.Ascending (xs ++ t :: ys)) (hu : ks.key u = ks.key t) :
    ks.Ascending (xs ++ u :: ys) := by
  obtain ⟨hxs, hys, hlt⟩ := ascending_append.mp h
  obtain ⟨hgt, hys⟩ := ascending_cons.mp hys
  refine ascending_append.mpr ⟨hxs, ascending_cons.mpr ⟨by rwa [hu], hys⟩, fun a ha b hb => ?_⟩
  grind

variable [TransOrd K]

theorem look_of_mem (h : ks.Ascending items) (ht : t ∈ items) (hk : compare (ks.key t) k = .eq) :
    ks.look items k = some (ks.val t) := by
  induction h with
  | nil => cases ht
  | @cons a items hlt _ ih =>
    rw [look_cons, put]
    rcases mem_cons.mp ht with rfl | ht
    · rw [if_pos hk]
    · have hak : compare (ks.key a) k = .lt := (TransCmp.congr_right hk).symm.trans (hlt t ht)
      rw [if_neg (by simp [hak]), ih ht]

theorem look_reverse (h : ks.Ascending items) : ks.look items.reverse = ks.look items := by
  funext k
  cases hl : ks.look items k with
  | none =>
    refine look_eq_none fun t ht heq => ?_
    rw [look_of_mem h (mem_reverse.mp ht) heq] at hl
    cases hl
  | some v =>
    induction h with
    | nil => cases hl
    | @cons t items hlt hi ih =>
      rw [look_cons, put] at hl
      rw [List.reverse_cons, look_append, look_cons, put]
      split_ifs at hl ⊢ with hk
      · rw [look_eq_none, none_or, hl]
        intro u hu heq
        have := TransCmp.eq_trans hk (OrientedCmp.eq_symm heq)
        simp [hlt u (mem_reverse.mp hu)] at this
      · rw [ih hl, some_or]

theorem look_congr {k' : K} (h : compare k k' = .eq) (items : List T) :
    ks.look items k = ks.look items k' := by
  simp only [look, TransCmp.congr_right h]

theorem look_split (h : ks.Ascending (xs ++ t :: ys)) :
    ks.look (xs ++ t :: ys) = put (ks.key t) (ks.val t) (ks.look (xs ++ ys)) := by
  funext k
  rw [put]
  split_ifs with hk
  · exact look_of_mem h (by simp) hk
  · rw [look_append, look_append, look_cons, put, if_neg hk]

theorem look_without (h : ks.Ascending (xs ++ t :: ys)) :
    ks.look (xs ++ ys) = drop (ks.key t) (ks.look (xs ++ t :: ys)) := by
  obtain ⟨-, hys, hlt⟩ := ascending_append.mp h
  funext k
  rw [drop, look_split h, put]
  split_ifs with hk
  · refine look_eq_none fun u hu heq => ?_
    have heq' : compare (ks.key u) (ks.key t) = .eq :=
      TransCmp.eq_trans heq (OrientedCmp.eq_symm hk)
    rcases mem_append.mp hu with hu | hu
    · simp [hlt u hu t (by simp)] at heq'
    · have := (ascending_cons.mp hys).1 u hu
      simp [OrientedCmp.eq_symm heq'] at this
  · rfl

theorem ascending_insert (h : ks.Ascending (xs ++ ys))
    (hxs : ∀ a ∈ xs, compare (ks.key a) (ks.key t) = .lt)
    (hys : ∀ b ∈ ys, compare (ks.key b) (ks.key t) = .gt) : ks.Ascending (xs ++ t :: ys) := by
  obtain ⟨hxs', hys', hlt⟩ := ascending_append.mp h
  have hgt (b : T) (hb : b ∈ ys) : compare (ks.key t) (ks.key b) = .lt :=
    OrientedCmp.gt_iff_lt.mp (hys b hb)
  refine ascending_append.mpr ⟨hxs', ascending_cons.mpr ⟨hgt, hys'⟩, fun a ha b hb => ?_⟩
  grind

theorem look_filter (h : ks.Ascending items) {p : T → Bool} {q : K → Bool}
    (hp : ∀ t ∈ items, p t = q (ks.key t)) (hq : ∀ {k k' : K}, compare k k' = .eq → q k = q k')
    (k : K) : ks.look (items.filter p) k = if q k then ks.look items k else none := by
  split_ifs with hk
  · cases hl : ks.look items k with
    | none =>
      refine look_eq_none fun t ht heq => ?_
      rw [look_of_mem h (mem_filter.mp ht).1 heq] at hl
      cases hl
    | some v =>
      obtain ⟨t, ht, heq, rfl⟩ := exists_of_look hl
      exact look_of_mem (h.filter p) (mem_filter.mpr ⟨ht, by rw [hp t ht, hq heq, hk]⟩) heq
  · refine look_eq_none fun t ht heq => hk ?_
    grind

/-- A list of keys that another has all of is not longer. -/
theorem length_le_of_look (hxs : ks.Ascending xs) (h : ∀ t ∈ xs, (ks.look ys (ks.key t)).isSome) :
    xs.length ≤ ys.length := by
  -- each item of the first list is sent to an item of the other of its key
  let f : T → Option T := fun t => ys.find? fun u => compare (ks.key u) (ks.key t) == .eq
  have hf (t : T) (ht : t ∈ xs) : ∃ u ∈ ys, f t = some u ∧ compare (ks.key u) (ks.key t) = .eq := by
    have hs : (f t).isSome := by simpa only [look, isSome_map] using h t ht
    obtain ⟨u, hu⟩ := isSome_iff_exists.mp hs
    grind
  have hnodup : (xs.map f).Nodup := by
    rw [List.Nodup, pairwise_map]
    refine hxs.imp_of_mem fun {a b} ha hb hlt heq => ?_
    obtain ⟨u, -, hu, hua⟩ := hf a ha
    obtain ⟨u', -, hu', hub⟩ := hf b hb
    obtain rfl : u = u' := Option.some.inj (by rw [← hu, heq, hu'])
    have := TransCmp.eq_trans (OrientedCmp.eq_symm hua) hub
    simp [hlt] at this
  have hsb : xs.map f ⊆ ys.map some := by grind
  simpa using (subperm_of_subset hnodup hsb).length_le

/-! ### Finding an item by halving -/

section Search

/-- Where an item that is not after what is looked for may still be: one of `size` items from `base`
on, halved until one is left. -/
def narrowed (f : T → Ordering) (items : List T) : Nat → Nat → Nat → Nat
  | 0, _, base => base
  | fuel + 1, size, base =>
    if size ≤ 1 then base
    else
      let half := size / 2
      let mid := base + half
      narrowed f items fuel (size - half) (if items[mid]?.map f = some .gt then base else mid)

/-- Where what is looked for is, or where it would go (`error`). -/
def search (f : T → Ordering) (items : List T) : Except Nat Nat :=
  if items.length = 0 then .error 0
  else
    let base := narrowed f items items.length items.length 0
    match items[base]?.map f with
    | some .eq => .ok base
    | some .lt => .error (base + 1)
    | _ => .error base

/-- The place after which every item is too great; the item there is not, unless it is the first. -/
structure Narrowed (f : T → Ordering) (items : List T) (size base : Nat) : Prop where
  pos : 0 < size
  le : base + size ≤ items.length
  here : base = 0 ∨ ∃ t, items[base]? = some t ∧ f t ≠ .gt
  after : ∀ i t, base + size ≤ i → items[i]? = some t → f t = .gt

theorem narrowed_spec {f : T → Ordering} {items : List T}
    (hf : items.Pairwise fun a b => f a = .gt → f b = .gt) (fuel size base : Nat)
    (h : Narrowed f items size base) (hfl : size ≤ fuel) :
    Narrowed f items 1 (narrowed f items fuel size base) := by
  induction fuel generalizing size base with
  | zero => exact absurd h.pos (by omega)
  | succ fuel ih =>
    rw [narrowed]
    split_ifs with ho
    · obtain rfl : size = 1 := by have := h.pos; omega
      exact h
    · have hle := h.le
      obtain ⟨t, ht⟩ : ∃ t, items[base + size / 2]? = some t := ⟨_, getElem?_eq_getElem (by omega)⟩
      dsimp only
      split_ifs with hgt
      · -- the middle one is too great, and so are those after it
        refine ih _ _ ⟨by omega, by omega, h.here, fun i u hi hu => ?_⟩ (by omega)
        have htg : f t = .gt := by simpa [ht] using hgt
        rcases Nat.lt_or_ge (base + size / 2) i with hlt | hge
        · obtain ⟨hi', rfl⟩ := List.getElem?_eq_some_iff.mp hu
          obtain ⟨hm, rfl⟩ := List.getElem?_eq_some_iff.mp ht
          exact List.pairwise_iff_getElem.mp hf _ _ hm hi' hlt htg
        grind
      · refine ih _ _ ⟨by omega, by omega, .inr ⟨t, ht, ?_⟩, fun i u hi hu => ?_⟩ (by omega)
        · simpa [ht] using hgt
        · exact h.after i u (by omega) hu

/-- Halving finds the item of a key, or where it would go. -/
theorem search_spec {items : List T} (h : ks.Ascending items) (k : K) :
    match search (fun t => compare (ks.key t) k) items with
    | .ok i => ∃ xs t ys, items = xs ++ t :: ys ∧ i = xs.length ∧ compare (ks.key t) k = .eq
    | .error i => ∃ xs ys, items = xs ++ ys ∧ i = xs.length ∧
        (∀ t ∈ xs, compare (ks.key t) k = .lt) ∧ ∀ t ∈ ys, compare (ks.key t) k = .gt := by
  have hm : items.Pairwise fun a b => compare (ks.key a) k = .gt → compare (ks.key b) k = .gt :=
    h.imp fun hlt hgt => OrientedCmp.gt_of_lt (TransCmp.lt_trans (OrientedCmp.lt_of_gt hgt) hlt)
  rw [search]
  split_ifs with he
  · simp_all
  · have hbs := narrowed_spec hm items.length items.length 0
      ⟨by omega, by omega, .inl rfl, fun i t hi ht => by
        rw [getElem?_eq_none (by omega)] at ht
        cases ht⟩ (Nat.le_refl _)
    generalize narrowed (fun t => compare (ks.key t) k) items items.length items.length 0 = base
      at hbs
    have hlt : base < items.length := hbs.le
    have hs : items = items.take base ++ items[base] :: items.drop (base + 1) := by
      rw [← drop_eq_getElem_cons hlt, take_append_drop]
    have hl : base = (items.take base).length := by
      rw [length_take]
      omega
    have ha (t : T) (ht : t ∈ items.drop (base + 1)) : compare (ks.key t) k = .gt := by
      obtain ⟨i, hi, rfl⟩ := mem_iff_getElem.mp ht
      exact hbs.after (base + 1 + i) _ (by omega) (by rw [← getElem?_drop]; simp)
    have hb (hle : compare (ks.key items[base]) k ≠ .gt) (t : T) (ht : t ∈ items.take base) :
        compare (ks.key t) k = .lt := by
      rw [hs] at h
      have hn := (ascending_append.mp h).2.2 t ht items[base] mem_cons_self
      exact TransCmp.lt_of_lt_of_isLE hn (Ordering.isLE_iff_ne_gt.mpr hle)
    simp only [getElem?_eq_getElem hlt, map_some]
    cases hc : compare (ks.key items[base]) k with
    | eq => exact ⟨_, _, _, hs, hl, hc⟩
    | lt =>
      refine ⟨items.take (base + 1), items.drop (base + 1), (take_append_drop _ _).symm,
        by rw [length_take]; omega, fun t ht => ?_, ha⟩
      grind
    | gt =>
      obtain rfl : base = 0 := by
        rcases hbs.here with hz | ⟨t, ht, hle⟩
        · exact hz
        grind
      grind

end Search

/-! ### Two lists side by side -/

section SideBySide

variable {k₀ : K}

variable {xs ys : List T}

variable (ks) in
/-- Walk two lists in the order of their keys side by side: an item of the first with that of the
second of its key, if any, and an item of either that the other has none of the key of. -/
def walk : Nat → List T → List T → List (Option T × Option T)
  | 0, _, _ => []
  | _ + 1, [], [] => []
  | fuel + 1, a :: xs, [] => (some a, none) :: walk fuel xs []
  | fuel + 1, [], b :: ys => (none, some b) :: walk fuel [] ys
  | fuel + 1, a :: xs, b :: ys =>
    match compare (ks.key a) (ks.key b) with
    | .lt => (some a, none) :: walk fuel xs (b :: ys)
    | .gt => (none, some b) :: walk fuel (a :: xs) ys
    | .eq => (some a, some b) :: walk fuel xs ys

variable (ks) in
/-- The whole walk: each step takes an item of one list at least. -/
def sideBySide (xs ys : List T) : List (Option T × Option T) :=
  ks.walk (xs.length + ys.length) xs ys

variable (ks) in
/-- What is made of two items of one key: an item of the key, or none, with the value that `value`
makes of theirs. -/
structure Makes (made : Option T × Option T → Option T) (value : Option W → Option W → Option W) :
    Prop where
  none : value none none = none
  val : ∀ a b, (made (a, b)).map ks.val = value (a.map ks.val) (b.map ks.val)
  key : ∀ {a b t}, made (a, b) = some t → ∃ u, (a = some u ∨ b = some u) ∧
    compare (ks.key t) (ks.key u) = .eq

variable (ks) in
/-- The items made of two lists are in order, have the keys of the lists, and the values made of
theirs. -/
structure Made (value : Option W → Option W → Option W) (xs ys items : List T) : Prop where
  ascending : ks.Ascending items
  look : ∀ k, ks.look items k = value (ks.look xs k) (ks.look ys k)
  mem : ∀ t ∈ items, ∃ u, (u ∈ xs ∨ u ∈ ys) ∧ compare (ks.key t) (ks.key u) = .eq

variable {made : Option T × Option T → Option T} {value : Option W → Option W → Option W}

theorem look_eq_none_of_lt {k : K} (hk : compare k₀ k = .eq) {items : List T}
    (h : ∀ t ∈ items, compare k₀ (ks.key t) = .lt) : ks.look items k = none := by
  refine look_eq_none fun t ht heq => ?_
  have := TransCmp.eq_trans hk (OrientedCmp.eq_symm heq)
  simp [h t ht] at this

theorem look_toList_append {c : Option T} (hc : ∀ t ∈ c, compare (ks.key t) k₀ = .eq)
    {items : List T} (h : ∀ t ∈ items, compare k₀ (ks.key t) = .lt) (k : K) :
    ks.look (c.toList ++ items) k =
      if compare k₀ k = .eq then c.map ks.val else ks.look items k := by
  cases c with
  | none =>
    split_ifs with hk
    · exact look_eq_none_of_lt hk h
    · rfl
  | some t =>
    rw [toList_some, singleton_append, look_cons, put, TransCmp.congr_left (hc t rfl)]
    rfl

/-- One step of the walk, at the least key of the two lists. -/
theorem Made.cons (h : ks.Makes made value) {a b : Option T} {rest : List (Option T × Option T)}
    (ha : ∀ t ∈ a, compare (ks.key t) k₀ = .eq) (hb : ∀ t ∈ b, compare (ks.key t) k₀ = .eq)
    (hxs : ∀ t ∈ xs, compare k₀ (ks.key t) = .lt) (hys : ∀ t ∈ ys, compare k₀ (ks.key t) = .lt)
    (hr : ks.Made value xs ys (rest.filterMap made)) :
    ks.Made value (a.toList ++ xs) (b.toList ++ ys) (((a, b) :: rest).filterMap made) := by
  have hl (t : T) (ht : t ∈ rest.filterMap made) : compare k₀ (ks.key t) = .lt := by
    obtain ⟨u, hu, heq⟩ := hr.mem t ht
    rw [TransCmp.congr_right heq]
    exact hu.elim (hxs u) (hys u)
  have hmm (t : T) (ht : t ∈ rest.filterMap made) :
      ∃ u, (u ∈ a.toList ++ xs ∨ u ∈ b.toList ++ ys) ∧ compare (ks.key t) (ks.key u) = .eq := by
    obtain ⟨u, hu, heq⟩ := hr.mem t ht
    exact ⟨u, hu.imp (mem_append_right _) (mem_append_right _), heq⟩
  cases hm : made (a, b) with
  | none =>
    rw [filterMap_cons_none hm]
    refine ⟨hr.ascending, fun k => ?_, hmm⟩
    rw [look_toList_append ha hxs, look_toList_append hb hys]
    split_ifs with hk
    · rw [← h.val, hm, look_eq_none_of_lt hk hl]
      rfl
    · exact hr.look k
  | some t =>
    obtain ⟨u, hu, htu⟩ := h.key hm
    have ht : compare (ks.key t) k₀ = .eq := TransCmp.eq_trans htu (hu.elim (ha u) (hb u))
    rw [filterMap_cons_some hm]
    refine ⟨ascending_cons.mpr ⟨fun t' ht' => ?_, hr.ascending⟩, fun k => ?_, fun t' ht' => ?_⟩
    · rw [TransCmp.congr_left ht]
      exact hl t' ht'
    · rw [look_toList_append ha hxs, look_toList_append hb hys, look_cons, put,
        TransCmp.congr_left ht]
      split_ifs with hk
      · rw [← h.val, hm]
        rfl
      · exact hr.look k
    grind

theorem walk_spec (h : ks.Makes made value) (fuel : Nat) (hxs : ks.Ascending xs)
    (hys : ks.Ascending ys) (hf : xs.length + ys.length ≤ fuel) :
    ks.Made value xs ys ((ks.walk fuel xs ys).filterMap made) := by
  have hs (t : T) : ∀ u ∈ some t, compare (ks.key u) (ks.key t) = .eq := by
    rintro u ⟨⟩
    exact ReflCmp.compare_self
  induction fuel generalizing xs ys with
  | zero =>
    obtain ⟨rfl, rfl⟩ : xs = [] ∧ ys = [] := by simpa using hf
    exact ⟨List.Pairwise.nil, fun k => by simp [walk, h.none], by simp [walk]⟩
  | succ fuel ih =>
    match xs, ys with
    | [], [] => exact ⟨List.Pairwise.nil, fun k => by simp [walk, h.none], by simp [walk]⟩
    | a :: xs, [] =>
      obtain ⟨hlt, hxs⟩ := ascending_cons.mp hxs
      exact .cons h (b := none) (hs a) nofun hlt (by simp)
        (ih hxs hys (by simp only [length_cons] at hf ⊢; omega))
    | [], b :: ys =>
      obtain ⟨hlt, hys⟩ := ascending_cons.mp hys
      exact .cons h (a := none) nofun (hs b) (by simp) hlt
        (ih hxs hys (by simp only [length_cons] at hf ⊢; omega))
    | a :: xs, b :: ys =>
      obtain ⟨hlx, hxs'⟩ := ascending_cons.mp hxs
      obtain ⟨hl, hys'⟩ := ascending_cons.mp hys
      simp only [length_cons] at hf
      rw [walk]
      cases hab : compare (ks.key a) (ks.key b) with
      | lt =>
        refine .cons h (b := none) (hs a) nofun hlx (fun t ht => ?_)
          (ih hxs' hys (by simp only [length_cons]; omega))
        rcases mem_cons.mp ht with rfl | ht
        · exact hab
        · exact TransCmp.lt_trans hab (hl t ht)
      | gt =>
        have hba := OrientedCmp.lt_of_gt hab
        refine .cons h (a := none) nofun (hs b) (fun t ht => ?_) hl
          (ih hxs hys' (by simp only [length_cons]; omega))
        rcases mem_cons.mp ht with rfl | ht
        · exact hba
        · exact TransCmp.lt_trans hba (hlx t ht)
      | eq =>
        refine .cons h (b := some b) (hs a) (fun t ht => ?_) hlx (fun t ht => ?_)
          (ih hxs' hys' (by omega))
        · obtain rfl : b = t := Option.some.inj ht
          exact OrientedCmp.eq_symm hab
        · rw [TransCmp.congr_left hab]
          exact hl t ht

/-- What is made of two lists walked side by side is in order and has, of each key, what is made of
what the two have of it. -/
theorem sideBySide_spec (h : ks.Makes made value) (hxs : ks.Ascending xs) (hys : ks.Ascending ys) :
    ks.Made value xs ys ((ks.sideBySide xs ys).filterMap made) :=
  walk_spec h _ hxs hys (Nat.le_refl _)

end SideBySide

/-! ### Items in any order -/

section Unsorted

variable (ks) in
/-- The items in the order of their keys; those of one key stay in the order they are in. -/
def sort (items : List T) : List T :=
  items.mergeSort fun a b => (compare (ks.key a) (ks.key b)).isLE

variable (ks) in
/-- One of the items of a key that stand one after another: what `pick` makes of a later and the
earlier one. -/
def dedupFrom (pick : T → T → T) : T → List T → List T
  | earlier, [] => [earlier]
  | earlier, later :: rest =>
    if compare (ks.key later) (ks.key earlier) = .eq then dedupFrom pick (pick later earlier) rest
    else earlier :: dedupFrom pick later rest

variable (ks) in
def dedup (pick : T → T → T) : List T → List T
  | [] => []
  | first :: rest => ks.dedupFrom pick first rest

theorem isLE_total (a b : K) : ((compare a b).isLE || (compare b a).isLE) = true := by
  have hs : compare b a = (compare a b).swap := OrientedCmp.eq_swap
  rw [hs]
  cases compare a b <;> rfl

variable (ks) in
theorem pairwise_sort (items : List T) :
    (ks.sort items).Pairwise fun a b => (compare (ks.key a) (ks.key b)).isLE :=
  pairwise_mergeSort (fun _ _ _ => TransCmp.isLE_trans) (fun _ _ => isLE_total _ _) items

theorem filter_sort (items : List T) (k : K) :
    (ks.sort items).filter (fun t => compare (ks.key t) k == .eq) =
      items.filter fun t => compare (ks.key t) k == .eq := by
  have hp : (ks.sort items).Perm items := List.mergeSort_perm items _
  have hs : (items.filter fun t => compare (ks.key t) k == .eq).Pairwise
      fun a b => (compare (ks.key a) (ks.key b)).isLE := by
    refine pairwise_of_forall_mem_list fun a ha b hb => ?_
    have ha := (mem_filter.mp ha).2
    have hb := (mem_filter.mp hb).2
    rw [TransCmp.eq_trans (beq_iff_eq.mp ha) (OrientedCmp.eq_symm (beq_iff_eq.mp hb))]
    rfl
  have hsb := (sublist_mergeSort (fun _ _ _ => TransCmp.isLE_trans)
    (fun _ _ => isLE_total _ _) hs filter_sublist).filter fun t => compare (ks.key t) k == .eq
  rw [List.filter_filter] at hsb
  simp only [Bool.and_self] at hsb
  exact (hsb.eq_of_length (hp.filter _).length_eq.symm).symm

variable (ks) in
theorem look_reverse_sort (items : List T) (k : K) :
    ks.look (ks.sort items).reverse k = ks.look items.reverse k := by
  simp only [look, ← head?_filter, filter_reverse, filter_sort]

variable {pick : T → T → T}

/-- Of the items of one key in a sorted list one stays, with the value of the last. -/
theorem dedupFrom_spec (hky : ∀ l e, compare (ks.key l) (ks.key e) = .eq →
      compare (ks.key (pick l e)) (ks.key e) = .eq)
    (hv : ∀ l e, ks.val (pick l e) = ks.val l) (rest : List T) (e : T)
    (h : (e :: rest).Pairwise fun a b => (compare (ks.key a) (ks.key b)).isLE) :
    ks.Ascending (ks.dedupFrom pick e rest) ∧
      (∀ t ∈ ks.dedupFrom pick e rest, ∃ u ∈ e :: rest, compare (ks.key t) (ks.key u) = .eq) ∧
      ∀ k, ks.look (ks.dedupFrom pick e rest) k = ks.look (e :: rest).reverse k := by
  induction rest generalizing e with
  | nil =>
    exact ⟨pairwise_singleton _ _, fun t ht => ⟨t, ht, ReflCmp.compare_self⟩, fun k => rfl⟩
  | cons l rest ih =>
    obtain ⟨hle, hr⟩ := pairwise_cons.mp h
    obtain ⟨hle', hr'⟩ := pairwise_cons.mp hr
    rw [dedupFrom]
    split_ifs with heq
    · have hp := hky l e heq
      obtain ⟨ha, hm, hl⟩ := ih (pick l e) (pairwise_cons.mpr
        ⟨fun t ht => by rw [TransCmp.congr_left hp]; exact hle t (by simp [ht]), hr'⟩)
      refine ⟨ha, fun t ht => ?_, fun k => ?_⟩
      · obtain ⟨u, hu, htu⟩ := hm t ht
        rcases mem_cons.mp hu with rfl | hu
        · exact ⟨e, by simp, TransCmp.eq_trans htu hp⟩
        · exact ⟨u, by simp [hu], htu⟩
      · rw [hl]
        simp only [List.reverse_cons, look_append, look_cons, put, hv,
          TransCmp.congr_left hp, TransCmp.congr_left heq]
        grind
    · obtain ⟨ha, hm, hl⟩ := ih l hr
      have hlt (t : T) (ht : t ∈ l :: rest) : compare (ks.key e) (ks.key t) = .lt := by
        have hel : compare (ks.key e) (ks.key l) = .lt := by
          cases hc : compare (ks.key e) (ks.key l) with
          | lt => rfl
          | eq => exact absurd (OrientedCmp.eq_symm hc) heq
          | gt => simpa [hc] using hle l (by simp)
        rcases mem_cons.mp ht with rfl | ht
        · exact hel
        · exact TransCmp.lt_of_lt_of_isLE hel (hle' t ht)
      refine ⟨ascending_cons.mpr ⟨fun t ht => ?_, ha⟩, fun t ht => ?_, fun k => ?_⟩
      · obtain ⟨u, hu, htu⟩ := hm t ht
        rw [TransCmp.congr_right htu]
        exact hlt u hu
      · rcases mem_cons.mp ht with rfl | ht
        · exact ⟨t, by simp, ReflCmp.compare_self⟩
        simp_all
      · rw [look_cons, put, hl, List.reverse_cons (a := e), look_append, look_cons, put]
        split_ifs with hk
        · rw [look_eq_none_of_lt hk fun t ht => hlt t (mem_reverse.mp ht)]
          rfl
        · rw [look_nil, or_none]

variable (ks pick) in
/-- The last item of each key stays, in the order of the keys. -/
theorem dedup_sort_spec (hk : ∀ l e, compare (ks.key l) (ks.key e) = .eq →
      compare (ks.key (pick l e)) (ks.key e) = .eq)
    (hv : ∀ l e, ks.val (pick l e) = ks.val l) (items : List T) :
    ks.Ascending (ks.dedup pick (ks.sort items)) ∧
      ∀ k, ks.look (ks.dedup pick (ks.sort items)) k = ks.look items.reverse k := by
  have hs := pairwise_sort ks items
  have hl := look_reverse_sort ks items
  cases hsr : ks.sort items with
  | nil =>
    rw [hsr] at hl
    exact ⟨List.Pairwise.nil, hl⟩
  | cons first rest =>
    rw [hsr] at hs hl
    obtain ⟨has, -, ha⟩ := dedupFrom_spec hk hv rest first hs
    exact ⟨has, fun k => (ha k).trans (hl k)⟩

end Unsorted

end Keys

end Silt
