import Silt.Lib.Ascending

/-!
# Ordered trees

What a persistent ordered map or set promises (`OrderedTree`): its items in the order of their keys,
and updates said in terms of what it has of each key.  The loops that put the items of a list into
a tree, or take them out, are said once here.  An ascending list is such a tree (`SortedList`).
-/

namespace Silt

open Std

/-- A type of persistent trees of the items of `T`, in the order of their keys. -/
class OrderedTree {T K W : outParam Type} [Ord K] (ks : outParam (Keys T K W)) (M : Type) where
  toList : M → List T
  ascending_toList (m : M) : ks.Ascending (toList m)
  ofList : List T → M
  look_ofList {items : List T} : ks.Ascending items →
    ks.look (toList (ofList items)) = ks.look items
  get : M → K → Option W
  get_eq (m : M) (k : K) : get m k = ks.look (toList m) k
  insert : T → M → M
  look_insert (t : T) (m : M) :
    ks.look (toList (insert t m)) = Keys.put (ks.key t) (ks.val t) (ks.look (toList m))
  remove : K → M → M
  look_remove (k : K) (m : M) : ks.look (toList (remove k m)) = Keys.drop k (ks.look (toList m))

namespace OrderedTree

variable {T K W M : Type} [Ord K] {ks : Keys T K W} [OrderedTree ks M]

/-- Put each item in: unless the tree has its key, or always. -/
def putAll (always : Bool) (items : List T) (m : M) : M :=
  items.foldl (fun m t => if always || (get m (ks.key t)).isNone then insert t m else m) m

/-- Put the items in whose keys `tree` lacks; nothing is made if it has them all. -/
def putLacking (tree : M) (items : List T) : Option M :=
  items.foldl (fun made t =>
    if (get tree (ks.key t)).isNone then some (insert t (made.getD tree)) else made) none

/-- Take the items out whose keys `tree` has; nothing is made if it has none. -/
def takeShared (tree : M) (items : List T) : Option M :=
  items.foldl (fun made t =>
    if (get tree (ks.key t)).isSome then some (remove (ks.key t) (made.getD tree)) else made) none

/-- Take each item out that the tree has, and put each in that it lacks. -/
def toggleAll (items : List T) (m : M) : M :=
  items.foldl (fun m t =>
    let removed := remove (ks.key t) m
    if (get m (ks.key t)).isNone then insert t removed else removed) m

variable [TransOrd K]

/-- A loop over ascending items, each of which changes what there is of its own key as `g` says. -/
theorem look_foldl {S : Type} (view : S → Option W) (k : K) (g : W → Option W → Option W)
    {step : S → T → S} (hne : ∀ s t, compare (ks.key t) k ≠ .eq → view (step s t) = view s)
    (heq : ∀ s t, compare (ks.key t) k = .eq → view (step s t) = g (ks.val t) (view s))
    {items : List T} (h : ks.Ascending items) (s : S) :
    view (items.foldl step s) = ((ks.look items k).map (g · (view s))).getD (view s) := by
  induction items generalizing s with
  | nil => rfl
  | cons t items ih =>
    obtain ⟨hlt, hi⟩ := Keys.ascending_cons.mp h
    rw [List.foldl_cons, ih hi, Keys.look_cons, Keys.put]
    by_cases hk : compare (ks.key t) k = .eq
    · rw [Keys.look_eq_none_of_lt hk hlt, if_pos hk, heq s t hk]
      rfl
    · rw [if_neg hk, hne s t hk]

theorem look_putAll (always : Bool) {items : List T} (h : ks.Ascending items) (m : M) (k : K) :
    ks.look (toList (putAll always items m)) k =
      if always then (ks.look items k).or (ks.look (toList m) k)
      else (ks.look (toList m) k).or (ks.look items k) := by
  refine (look_foldl (fun m : M => ks.look (toList m) k) k
    (fun v old => if always then some v else old.or (some v)) ?_ ?_ h m).trans ?_
  · intro m t hk
    split_ifs <;> simp [look_insert, Keys.put, hk]
  · intro m t hk
    rw [get_eq, Keys.look_congr hk]
    cases always <;> cases hm : ks.look (toList m) k <;> simp [look_insert, Keys.put, hk, hm]
  · cases always <;> cases ks.look items k <;> simp

theorem look_putLacking (tree : M) {items : List T} (h : ks.Ascending items) (k : K) :
    ks.look (toList ((putLacking tree items).getD tree)) k =
      (ks.look (toList tree) k).or (ks.look items k) := by
  refine (look_foldl (fun made : Option M => ks.look (toList (made.getD tree)) k) k
    (fun v old => if (ks.look (toList tree) k).isNone then some v else old) ?_ ?_ h none).trans ?_
  · intro made t hk
    split_ifs <;> simp [look_insert, Keys.put, hk]
  · intro made t hk
    rw [get_eq, Keys.look_congr hk]
    split_ifs <;> simp [look_insert, Keys.put, hk]
  · cases ks.look items k <;> cases ht : ks.look (toList tree) k <;> simp [ht]

theorem look_takeShared (tree : M) {items : List T} (h : ks.Ascending items) (k : K) :
    ks.look (toList ((takeShared tree items).getD tree)) k =
      if (ks.look items k).isSome then none else ks.look (toList tree) k := by
  refine (look_foldl (fun made : Option M => ks.look (toList (made.getD tree)) k) k
    (fun _ old => if (ks.look (toList tree) k).isSome then none else old) ?_ ?_ h none).trans ?_
  · intro made t hk
    split_ifs <;> simp [look_remove, Keys.drop, hk]
  · intro made t hk
    rw [get_eq, Keys.look_congr hk]
    split_ifs <;> simp [look_remove, Keys.drop, hk]
  · cases ks.look items k <;> cases ht : ks.look (toList tree) k <;> simp [ht]

theorem look_toggleAll {items : List T} (h : ks.Ascending items) (m : M) (k : K) :
    ks.look (toList (toggleAll items m)) k =
      if (ks.look items k).isSome then
        if (ks.look (toList m) k).isSome then none else ks.look items k
      else ks.look (toList m) k := by
  refine (look_foldl (fun m : M => ks.look (toList m) k) k
    (fun v old => if old.isSome then none else some v) ?_ ?_ h m).trans ?_
  · intro m t hk
    dsimp only
    split_ifs <;> simp [look_insert, look_remove, Keys.put, Keys.drop, hk]
  · intro m t hk
    dsimp only
    rw [get_eq, Keys.look_congr hk]
    cases ks.look (toList m) k <;> simp [look_insert, look_remove, Keys.put, Keys.drop, hk]
  · cases ks.look items k <;> simp

end OrderedTree

/-- The items of a tree as an ascending list. -/
structure SortedList {T K W : Type} [Ord K] (ks : Keys T K W) where
  items : List T
  ascending : ks.Ascending items

namespace SortedList

variable {T K W : Type} [Ord K] [TransOrd K] {ks : Keys T K W}

/-- The last item of each key. -/
def ofItems (items : List T) : SortedList ks :=
  ⟨ks.dedup (fun later _ => later) (ks.sort items),
    (Keys.dedup_sort_spec ks _ (fun _ _ h => h) (fun _ _ => rfl) items).1⟩

theorem look_ofItems (items : List T) :
    ks.look (ofItems items : SortedList ks).items = ks.look items.reverse :=
  funext (Keys.dedup_sort_spec ks _ (fun _ _ h => h) (fun _ _ => rfl) items).2

instance : OrderedTree ks (SortedList ks) where
  toList m := m.items
  ascending_toList m := m.ascending
  ofList := ofItems
  look_ofList h := (look_ofItems _).trans (Keys.look_reverse h)
  get m := ks.look m.items
  get_eq _ _ := rfl
  insert t m := ofItems (m.items ++ [t])
  look_insert t m := by
    rw [look_ofItems, List.reverse_append, List.reverse_singleton, List.singleton_append,
      Keys.look_cons, Keys.look_reverse m.ascending]
  remove k m := ⟨m.items.filter fun t => !(compare k (ks.key t)).isEq, m.ascending.filter _⟩
  look_remove k m := by
    funext k'
    rw [Keys.look_filter m.ascending (q := fun k' => !(compare k k').isEq) (fun _ _ => rfl)
      fun h => by rw [TransCmp.congr_right h], Keys.drop]
    cases compare k k' <;> rfl

end SortedList

end Silt
