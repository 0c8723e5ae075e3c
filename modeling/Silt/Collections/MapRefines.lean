import Silt.Collections.MapValue

/-!
# Maps and sets as functions of their keys

However it is kept, a map or a set stands for what it has of each key (`Kept.look`), and its items
are in strictly ascending order.  Each operation of the source makes what the operation on functions
of keys makes, whichever of two operands is walked and whichever is kept.

## Main definitions

* `Kept.WF` : the items are in order, and a tree made of them has what they have.

## Main results

* `MapValue.get_eq`, `insert_makes`, `remove_makes`, `merge_makes` : the operations on maps.
* `SetValue.contains_eq`, `union_makes`, `difference_makes` and their like : those on sets.
-/

namespace Silt.Collections

open List Function Option Bool

open Std OrderedTree

variable {T K W M : Type} [Ord K] {ks : Keys T K W}

theorem put_put {k k' : K} [TransOrd K] (h : compare k' k = .eq) (v v' : W) (f : K → Option W) :
    Keys.put k v (Keys.put k' v' f) = Keys.put k' v f := by
  funext x
  rw [Keys.put, Keys.put, Keys.put, TransCmp.congr_left h]
  split_ifs <;> rfl

theorem drop_congr {k k' : K} [TransOrd K] (h : compare k k' = .eq) (f : K → Option W) :
    Keys.drop k f = Keys.drop k' f := by
  funext x
  rw [Keys.drop, Keys.drop, TransCmp.congr_left h]

namespace Kept

variable {kept : Kept T M} {xs : List T}

variable [OrderedTree ks M]

/-- The items are in order, each key once, and a tree made of them has what they have. -/
def WF : Kept T M → Prop
  | .flat xs => ks.Ascending xs
  | .side xs made => ks.Ascending xs ∧ ∀ t ∈ made, ks.look (toList t) = ks.look xs
  | .tree _ => True

/-- What there is of a key. -/
def look (kept : Kept T M) : K → Option W := ks.look kept.iter

/-- The items kept are well formed, with the values that `f` says. -/
def Makes (kept : Kept T M) (f : K → Option W) : Prop := kept.WF ∧ kept.look = f

theorem ascending_iter (h : kept.WF) : ks.Ascending kept.iter := by
  match kept, h with
  | .flat xs, h => exact h
  | .side xs made, h => exact h.1
  | .tree t, _ => exact ascending_toList t

theorem len_eq (kept : Kept T M) : kept.len = kept.iter.length := by
  cases kept <;> rfl

theorem iter_of_isEmpty (h : kept.isEmpty) : kept.iter = [] := by
  rw [isEmpty, beq_iff_eq, len_eq] at h
  exact length_eq_zero_iff.mp h

theorem look_of_isEmpty (h : kept.isEmpty) (k : K) : kept.look k = none := by
  rw [look, iter_of_isEmpty h, Keys.look_nil]

theorem look_tree? (h : kept.WF) {t : M} (ht : kept.tree? = some t) :
    ks.look (toList t) = kept.look := by
  match kept, h with
  | .side xs none, h =>
    obtain rfl : ofList xs = t := Option.some.inj ht
    exact look_ofList h.1
  | .side xs (some t'), h =>
    obtain rfl : t' = t := Option.some.inj ht
    exact h.2 t' rfl
  | .tree t', _ =>
    obtain rfl : t' = t := Option.some.inj ht
    rfl

theorem ofSorted_makes (h : ks.Ascending xs) : (ofSorted xs : Kept T M).Makes (ks.look xs) := by
  rw [ofSorted]
  split_ifs
  · exact ⟨h, rfl⟩
  · exact ⟨⟨h, nofun⟩, rfl⟩

theorem tree_makes (t : M) : (.tree t : Kept T M).Makes (ks.look (toList t)) := ⟨trivial, rfl⟩

theorem ofTree_makes (t : M) : (ofTree t : Kept T M).Makes (ks.look (toList t)) := by
  rw [ofTree]
  split_ifs
  · exact tree_makes t
  · exact ⟨ascending_toList t, rfl⟩

/-- Items walked side by side make what is made of each key. -/
theorem sideBySide_makes [TransOrd K] {other : Kept T M} (h : kept.WF) (h' : other.WF)
    {made : Option T × Option T → Option T} {value : Option W → Option W → Option W}
    (hm : ks.Makes made value) :
    (ofSorted ((ks.sideBySide kept.iter other.iter).filterMap made) : Kept T M).Makes
      fun k => value (kept.look k) (other.look k) := by
  have hs := Keys.sideBySide_spec hm (ascending_iter h) (ascending_iter h')
  obtain ⟨hwf, hl⟩ := ofSorted_makes (M := M) hs.ascending
  exact ⟨hwf, hl.trans (funext hs.look)⟩

/-- What a caller gets that asks for an item time after time. -/
def IntoIter.pull : Nat → IntoIter T M → List (Option T)
  | 0, _ => []
  | n + 1, it =>
    match it.next? with
    | none => none :: it.pull n
    | some (item, it) => some item :: it.pull n

theorem pull_flat (h : kept.side? = some xs) (n i : Nat) :
    (IntoIter.flat kept i).pull n = (List.range n).map fun j => xs[i + j]? := by
  induction n generalizing i with
  | zero => rfl
  | succ n ih =>
    rw [IntoIter.pull, range_succ_eq_map]
    cases hi : xs[i]? with
    | none =>
      have hl := getElem?_eq_none_iff.mp hi
      have hn (j : Nat) : xs[i + j]? = none := getElem?_eq_none (by omega)
      simp [IntoIter.next?, h, hi, ih, hn, comp_def]
    | some item => simp [IntoIter.next?, h, hi, ih, Nat.add_assoc, Nat.add_comm 1]

theorem pull_tree (n : Nat) (left : List T) :
    (IntoIter.tree left : IntoIter T M).pull n = (List.range n).map (left[·]?) := by
  induction n generalizing left with
  | zero => rfl
  | succ n ih =>
    rw [IntoIter.pull, range_succ_eq_map]
    cases left <;> simp [IntoIter.next?, ih, comp_def]

theorem pull_intoIter (kept : Kept T M) (n : Nat) :
    kept.intoIter.pull n = (List.range n).map (kept.iter[·]?) := by
  cases kept with
  | flat xs =>
    have hp := pull_flat (show (flat xs : Kept T M).side? = some xs from rfl) n 0
    simp only [Nat.zero_add] at hp
    exact hp
  | side xs made =>
    have hp := pull_flat (show (side xs made : Kept T M).side? = some xs from rfl) n 0
    simp only [Nat.zero_add] at hp
    exact hp
  | tree t => exact pull_tree n (toList t)

theorem bySize_eq (kept other : Kept T M) :
    bySize kept other = (kept, other) ∨ bySize kept other = (other, kept) := by
  rw [bySize]
  split_ifs
  · exact .inl rfl
  · exact .inr rfl

theorem look_search [TransOrd K] (h : ks.Ascending xs) (k : K) :
    match Keys.search (fun t => compare (ks.key t) k) xs with
    | .ok i => ∃ t, xs[i]? = some t ∧ ks.look xs k = some (ks.val t)
    | .error _ => ks.look xs k = none := by
  have hs := Keys.search_spec h k
  cases hf : Keys.search (fun t => compare (ks.key t) k) xs with
  | ok i =>
    rw [hf] at hs
    obtain ⟨xs', t, ys, rfl, rfl, ht⟩ := hs
    exact ⟨t, by simp, Keys.look_of_mem h (by simp) ht⟩
  | error i =>
    rw [hf] at hs
    obtain ⟨xs', ys, rfl, -, hlt, hgt⟩ := hs
    refine Keys.look_eq_none fun t ht heq => ?_
    grind

theorem withAt_makes [TransOrd K] (item : T) (h : ks.Ascending xs) {i : Nat}
    (hf : Keys.search (fun t => compare (ks.key t) (ks.key item)) xs = .error i) :
    ∃ xs', withAt xs i item = some xs' ∧
      (.flat xs' : Kept T M).Makes (Keys.put (ks.key item) (ks.val item) (ks.look xs)) := by
  have hs := Keys.search_spec h (ks.key item)
  rw [hf] at hs
  obtain ⟨before, after, rfl, rfl, hlt, hgt⟩ := hs
  have ha := Keys.ascending_insert h hlt hgt
  refine ⟨before ++ item :: after, ?_, ha, Keys.look_split ha⟩
  rw [withAt, if_pos (by simp), take_left, drop_left]

theorem withoutAt_makes [TransOrd K] (h : ks.Ascending xs) {k : K} {i : Nat}
    (hf : Keys.search (fun t => compare (ks.key t) k) xs = .ok i) :
    ∃ xs', withoutAt xs i = some xs' ∧ (.flat xs' : Kept T M).Makes (Keys.drop k (ks.look xs)) := by
  have hs := Keys.search_spec h k
  rw [hf] at hs
  obtain ⟨before, t, after, rfl, rfl, ht⟩ := hs
  refine ⟨before ++ after, ?_, Keys.ascending_without h, ?_⟩
  · rw [withoutAt, if_pos (by simp), take_left]
    simp
  · rw [← drop_congr ht]
    exact Keys.look_without h

theorem drop_look [TransOrd K] {k : K} (h : kept.look k = none) :
    Keys.drop k kept.look = kept.look := by
  funext x
  rw [Keys.drop]
  split_ifs with hx
  · rw [← h]
    exact Keys.look_congr hx _
  · rfl

/-- Items without a key: those side by side without the one found, or those of a tree if the key is
there. -/
theorem removed_makes [TransOrd K] (h : kept.WF) {k : K} {made : Option (Kept T M)}
    (hfl : ∀ xs, kept = .flat xs →
      made = match Keys.search (fun t => compare (ks.key t) k) xs with
        | .ok i => (withoutAt xs i).map .flat
        | .error _ => some kept)
    (htr : ∀ t, kept.tree? = some t →
      made = if (kept.look k).isSome then some (ofTree (OrderedTree.remove k t)) else some kept) :
    ∃ kept', made = some kept' ∧ kept'.Makes (Keys.drop k kept.look) := by
  have hg (hn : kept.look k = none) : kept.Makes (Keys.drop k kept.look) := ⟨h, (drop_look hn).symm⟩
  cases ht : kept.tree? with
  | some t =>
    rw [htr t ht]
    split_ifs with hs
    · obtain ⟨hwf, hl⟩ := ofTree_makes (T := T) (OrderedTree.remove k t)
      exact ⟨_, rfl, hwf, by rw [hl, look_remove, look_tree? h ht]⟩
    · exact ⟨_, rfl, hg (by simpa using hs)⟩
  | none =>
    cases kept with
    | flat xs =>
      have hl := look_search (show ks.Ascending xs from h) k
      rw [hfl xs rfl]
      cases hf : Keys.search (fun t => compare (ks.key t) k) xs with
      | ok i =>
        obtain ⟨xs', hw, hm⟩ := withoutAt_makes (M := M) h hf
        exact ⟨.flat xs', congrArg (Option.map flat) hw, hm⟩
      | error i =>
        rw [hf] at hl
        exact ⟨_, rfl, hg hl⟩
    | side xs made | tree t => cases ht

end Kept

/-! ### Maps -/

variable {α : Type} [Ord α] [TransOrd α]

namespace MapValue

variable {m : MapValue α M}

variable [OrderedTree (entryKeys α) M]

theorem ofUnsorted_makes (entries : List (α × α)) :
    (ofUnsorted entries : MapValue α M).Makes
      (entries.foldl (fun f entry => Keys.put entry.1 entry.2 f) fun _ => none) := by
  obtain ⟨ha, hl⟩ := Keys.dedup_sort_spec (entryKeys α) (fun later _ => later)
    (fun _ _ h => h) (fun _ _ => rfl) entries
  obtain ⟨hwf, hm⟩ := Kept.ofSorted_makes (M := M) ha
  refine ⟨hwf, hm.trans (funext fun k => ?_)⟩
  rw [hl]
  exact ((Keys.foldl_put (entryKeys α) entries (fun _ => none) k).trans (or_none)).symm

theorem get_eq (h : m.WF) (key : α) : m.get key = some (m.look key) := by
  have hs {entries : List (α × α)} (ha : (entryKeys α).Ascending entries) :
      (match find entries key with
        | .ok i => (entries[i]?).map fun entry => some entry.2
        | .error _ => some none) = some ((entryKeys α).look entries key) := by
    have hl := Kept.look_search ha key
    rw [find]
    grind
  match m, h with
  | .flat entries, h => exact hs h
  | .side entries made, h => exact hs h.1
  | .tree t, _ => exact congrArg some (OrderedTree.get_eq t key)

theorem insert_makes (h : m.WF) (key value : α) :
    ∃ made, m.insert key value = some made ∧ made.Makes (Keys.put key value m.look) := by
  have htr {t : M} (ht : (entryKeys α).look (toList t) = m.look) :
      (.tree (OrderedTree.insert (key, value) t) : MapValue α M).Makes
        (Keys.put key value m.look) := by
    refine ⟨trivial, ?_⟩
    rw [← ht]
    exact look_insert (key, value) t
  match m, h with
  | .flat entries, h =>
    rw [insert]
    cases hf : find entries key with
    | ok i =>
      have hs := Keys.search_spec (show (entryKeys α).Ascending entries from h) key
      rw [find] at hf
      rw [hf] at hs
      obtain ⟨before, t, after, rfl, rfl, ht⟩ := hs
      have ha := Keys.ascending_replace h (u := (t.1, value)) rfl
      refine ⟨.flat (before ++ (t.1, value) :: after), by simp, ha, ?_⟩
      change (entryKeys α).look (before ++ (t.1, value) :: after) =
        Keys.put key value ((entryKeys α).look (before ++ t :: after))
      rw [Keys.look_split h, put_put ht, Keys.look_split ha]
    | error i =>
      dsimp only
      split_ifs
      · obtain ⟨entries', hw, hm⟩ := Kept.withAt_makes (M := M) (key, value) h hf
        exact ⟨.flat entries', by rw [hw]; rfl, hm⟩
      · exact ⟨_, rfl, htr (look_ofList h)⟩
  | .side entries none, h | .side entries (some _), h => exact ⟨_, rfl, htr (Kept.look_tree? h rfl)⟩
  | .tree t, h => exact ⟨_, rfl, htr rfl⟩

theorem remove_makes (h : m.WF) (key : α) :
    ∃ made, m.remove key = some made ∧ made.Makes (Keys.drop key m.look) := by
  refine Kept.removed_makes h (fun xs hm => by rw [hm]; rfl) fun t ht => ?_
  have hf xs : m = .flat xs → False := by
    rintro rfl
    cases ht
  rw [remove.eq_2 _ _ hf, get_eq h, ht]
  rfl

theorem makes_mergedEntry :
    (entryKeys α).Makes mergedEntry fun ours theirs => theirs.or ours where
  none := rfl
  val a b := by rcases a with - | ⟨k, v⟩ <;> rcases b with - | ⟨k', v'⟩ <;> rfl
  key {a b t} ht := by
    rcases a with - | ⟨k, v⟩ <;> rcases b with - | ⟨k', v'⟩
    · cases ht
    · exact ⟨_, .inr ht.symm.symm, ReflCmp.compare_self⟩
    · exact ⟨_, .inl ht, ReflCmp.compare_self⟩
    · obtain rfl := Option.some.inj ht
      exact ⟨_, .inl rfl, ReflCmp.compare_self⟩

/-- The values of the second map win, whichever map is put into the tree of the other. -/
theorem merge_makes {other : MapValue α M} (h : m.WF) (h' : other.WF) :
    (m.merge other).Makes fun k => (other.look k).or (m.look k) := by
  rw [merge]
  split_ifs with ho hm hl
  · exact ⟨h, funext fun k => by rw [Kept.look_of_isEmpty ho, none_or]⟩
  · exact ⟨h', funext fun k => by rw [Kept.look_of_isEmpty hm, or_none]⟩
  · dsimp only
    cases ht : m.tree? with
    | none => exact Kept.sideBySide_makes h h' makes_mergedEntry
    | some t =>
      refine ⟨trivial, funext fun k => ?_⟩
      exact (look_putAll true (Kept.ascending_iter h') t k).trans
        (by rw [Kept.look_tree? h ht]; rfl)
  · dsimp only
    cases ht : other.tree? with
    | none => exact Kept.sideBySide_makes h h' makes_mergedEntry
    | some t =>
      refine ⟨trivial, funext fun k => ?_⟩
      exact (look_putAll false (Kept.ascending_iter h) t k).trans
        (by rw [Kept.look_tree? h' ht]; rfl)

end MapValue

/-! ### Sets -/

namespace SetValue

variable {s other : SetValue α M}

variable [OrderedTree (memberKeys α) M]

/-- The set has exactly the members that `f` says. -/
def Makes (s : SetValue α M) (f : α → Bool) : Prop := s.WF ∧ ∀ k, (s.look k).isSome = f k

omit [TransOrd α] in
theorem makes_of_kept {f : α → Option Unit} (h : Kept.Makes s f) :
    Makes s fun k => (f k).isSome := ⟨h.1, fun k => by rw [h.2]⟩

omit [TransOrd α] in
theorem makes_congr {f g : α → Bool} (h : Makes s f) (hfg : ∀ k, f k = g k) :
    Makes s g := ⟨h.1, fun k => (h.2 k).trans (hfg k)⟩

theorem contains_eq (h : s.WF) (value : α) : s.contains value = (s.look value).isSome := by
  have hs {members : List α} (ha : (memberKeys α).Ascending members) :
      (match findMember members value with
        | .ok _ => true
        | .error _ => false) = ((memberKeys α).look members value).isSome := by
    have hl := Kept.look_search ha value
    rw [findMember]
    grind
  match s, h with
  | .flat members, h => exact hs h
  | .side members made, h => exact hs h.1
  | .tree t, _ => exact congrArg Option.isSome (OrderedTree.get_eq t value)

theorem contains_congr (h : s.WF) {k k' : α} (heq : compare k k' = .eq) :
    s.contains k = s.contains k' := by
  rw [contains_eq h, contains_eq h]
  exact congrArg Option.isSome (Keys.look_congr heq _)

theorem ofUnsorted_makes (members : List α) :
    Makes (ofUnsorted members : SetValue α M) fun k => members.any (compare · k == .eq) := by
  obtain ⟨ha, hl⟩ := Keys.dedup_sort_spec (memberKeys α) (fun _ earlier => earlier)
    (fun _ _ _ => ReflCmp.compare_self) (fun _ _ => rfl) members
  refine makes_congr (makes_of_kept (Kept.ofSorted_makes ha)) fun k => ?_
  rw [hl, Keys.look, Option.isSome_map, ← List.any_reverse, Bool.eq_iff_iff, List.find?_isSome,
    List.any_eq_true]
  rfl

omit [TransOrd α] in
theorem isSome_put (value : α) (f : α → Option Unit) (k : α) :
    (Keys.put value () f k).isSome = (compare value k == .eq || (f k).isSome) := by
  rw [Keys.put]
  cases compare value k <;> simp

omit [TransOrd α] in
theorem isSome_drop (value : α) (f : α → Option Unit) (k : α) :
    (Keys.drop value f k).isSome = (!(compare value k == .eq) && (f k).isSome) := by
  rw [Keys.drop]
  cases compare value k <;> simp

theorem put_of_look {value : α} (h : (s.look value).isSome) (k : α) :
    (s.look k).isSome = (compare value k == .eq || (s.look k).isSome) := by
  cases hk : compare value k with
  | eq =>
    rw [← show s.look value = s.look k from Keys.look_congr hk _, h]
    rfl
  | lt | gt => rfl

theorem insert_makes (h : s.WF) (value : α) :
    ∃ made, s.insert value = some made ∧
      Makes made fun k => compare value k == .eq || (s.look k).isSome := by
  have htr {t : M} (ht : (memberKeys α).look (toList t) = s.look) :
      Makes (.tree (OrderedTree.insert value t) : SetValue α M)
        fun k => compare value k == .eq || (s.look k).isSome := by
    refine makes_congr (makes_of_kept (Kept.tree_makes _)) fun k => ?_
    rw [look_insert, ht]
    exact isSome_put value s.look k
  have hmn {t : M} (hs : s.insert value =
      if s.contains value then some s else some (.tree (OrderedTree.insert value t)))
      (ht : (memberKeys α).look (toList t) = s.look) :
      ∃ made, s.insert value = some made ∧
        Makes made fun k => compare value k == .eq || (s.look k).isSome := by
    rw [hs]
    split_ifs with hc
    · rw [contains_eq h] at hc
      exact ⟨s, rfl, h, put_of_look hc⟩
    · exact ⟨_, rfl, htr ht⟩
  match s, h with
  | .flat members, h =>
    rw [insert]
    have hl := Kept.look_search (show (memberKeys α).Ascending members from h) value
    simp only [id_eq] at hl
    cases hf : findMember members value with
    | ok i =>
      rw [findMember] at hf
      rw [hf] at hl
      obtain ⟨t, -, hv⟩ := hl
      exact ⟨_, rfl, h, put_of_look (congrArg Option.isSome hv)⟩
    | error i =>
      split_ifs
      · obtain ⟨members', hw, hm⟩ := Kept.withAt_makes (M := M) value
          (show (memberKeys α).Ascending members from h) hf
        refine ⟨.flat members', congrArg (Option.map Kept.flat) hw, ?_⟩
        exact makes_congr (makes_of_kept hm) fun k => isSome_put value _ k
      · exact ⟨_, rfl, htr (look_ofList h)⟩
  | .side members none, h | .side members (some _), h => exact hmn rfl (Kept.look_tree? h rfl)
  | .tree t, h => exact hmn rfl rfl

theorem remove_makes (h : s.WF) (value : α) :
    ∃ made, s.remove value = some made ∧
      Makes made fun k => !(compare value k == .eq) && (s.look k).isSome := by
  obtain ⟨made, hmd, hm⟩ : ∃ made, s.remove value = some made ∧
      Kept.Makes made (Keys.drop value s.look) := by
    refine Kept.removed_makes h (fun xs hs => by rw [hs]; rfl) fun t ht => ?_
    have hf xs : s = .flat xs → False := by
      rintro rfl
      cases ht
    rw [← contains_eq h, remove.eq_2 _ _ hf, ht]
    rfl
  exact ⟨made, hmd, makes_congr (makes_of_kept hm) fun k => isSome_drop value s.look k⟩

theorem makes_either : (memberKeys α).Makes (fun (ours, theirs) => ours.or theirs)
    fun ours theirs => ours.or theirs where
  none := rfl
  val a b := by cases a <;> cases b <;> rfl
  key {a b t} ht := by
    cases a with
    | none => exact ⟨t, .inr ht, ReflCmp.compare_self⟩
    | some a => exact ⟨t, .inl ht, ReflCmp.compare_self⟩

theorem unionTree_makes {l sm : SetValue α M} (h : l.WF) (h' : sm.WF) {t : M}
    (ht : l.tree? = some t) :
    Makes (match putLacking t sm.iter with
      | some t => .tree t
      | none => l) fun k => (l.look k).isSome || (sm.look k).isSome := by
  have hl k := look_putLacking t (Kept.ascending_iter h') k
  rw [Kept.look_tree? h ht] at hl
  have hor (k : α) : ((l.look k).or (sm.look k)).isSome =
      ((l.look k).isSome || (sm.look k).isSome) := by
    cases l.look k <;> rfl
  cases hm : putLacking t sm.iter with
  | some t' =>
    rw [hm] at hl
    exact ⟨trivial, fun k => (congrArg Option.isSome (hl k)).trans (hor k)⟩
  | none =>
    rw [hm, getD_none] at hl
    have hs k := (congrFun (Kept.look_tree? h ht) k).symm.trans (hl k)
    exact ⟨h, fun k => (congrArg Option.isSome (hs k)).trans (hor k)⟩

theorem union_makes (h : s.WF) (h' : other.WF) :
    Makes (s.union other) fun k => (s.look k).isSome || (other.look k).isSome := by
  have hsd : Makes (Kept.ofSorted (((memberKeys α).sideBySide s.iter other.iter).filterMap
      fun (ours, theirs) => ours.or theirs) : SetValue α M)
      fun k => (s.look k).isSome || (other.look k).isSome := by
    refine makes_congr (makes_of_kept (Kept.sideBySide_makes h h' makes_either)) fun k => ?_
    cases s.look k <;> rfl
  rcases Kept.bySize_eq s other with hs | hs
  · simp only [union, hs]
    split_ifs with he
    · exact ⟨h, fun k => by simp [Kept.look_of_isEmpty he]⟩
    · cases ht : s.tree? with
      | none => exact hsd
      | some t => exact unionTree_makes h h' ht
  · simp only [union, hs]
    split_ifs with he
    · exact ⟨h', fun k => by simp [Kept.look_of_isEmpty he]⟩
    · cases ht : other.tree? with
      | none => exact hsd
      | some t => exact makes_congr (unionTree_makes h' h ht) fun k => or_comm _ _

theorem filter_makes (h : s.WF) (h' : other.WF) (b : Bool) :
    Makes (Kept.ofSorted (s.iter.filter fun m => other.contains m == b) : SetValue α M)
      fun k => (s.look k).isSome && (other.look k).isSome == b := by
  have hl k := Keys.look_filter (Kept.ascending_iter h)
    (p := fun m => other.contains m == b) (q := fun k => other.contains k == b)
    (fun _ _ => rfl) (fun heq => by rw [contains_congr h' heq]) k
  refine makes_congr (makes_of_kept (Kept.ofSorted_makes ((Kept.ascending_iter h).filter _)))
    fun k => ?_
  rw [hl, ← contains_eq h', Kept.look]
  cases hk : other.contains k == b <;> simp

theorem intersection_makes (h : s.WF) (h' : other.WF) :
    Makes (s.intersection other) fun k => (s.look k).isSome && (other.look k).isSome := by
  have hb {l sm : SetValue α M} (hl : l.WF) (hs : sm.WF) :
      Makes (Kept.ofSorted (sm.iter.filter fun m => l.contains m) :
        SetValue α M) fun k => (sm.look k).isSome && (l.look k).isSome := by
    have := filter_makes hs hl true
    simpa only [beq_true] using this
  rcases Kept.bySize_eq s other with hsz | hsz
  · simp only [intersection, hsz]
    exact makes_congr (hb h h') fun k => and_comm _ _
  · simp only [intersection, hsz]
    exact hb h' h

/-- The set without the members of another, those taken out of its tree one by one. -/
theorem differenceTree_makes (h : s.WF) (h' : other.WF) {t : M} (ht : s.tree? = some t) :
    Makes (match takeShared t other.iter with
      | some t => Kept.ofTree t
      | none => s) fun k => (s.look k).isSome && !(other.look k).isSome := by
  have hl k := look_takeShared t (Kept.ascending_iter h') k
  rw [Kept.look_tree? h ht] at hl
  have hif (k : α) : (if (other.look k).isSome then none else s.look k).isSome =
      ((s.look k).isSome && !(other.look k).isSome) := by
    cases other.look k <;> simp
  cases hm : takeShared t other.iter with
  | some t' =>
    rw [hm] at hl
    refine makes_congr (makes_of_kept (Kept.ofTree_makes t')) fun k => ?_
    exact (congrArg Option.isSome (hl k)).trans (hif k)
  | none =>
    rw [hm, getD_none] at hl
    have hs k := (congrFun (Kept.look_tree? h ht) k).symm.trans (hl k)
    exact ⟨h, fun k => (congrArg Option.isSome (hs k)).trans (hif k)⟩

theorem difference_makes (h : s.WF) (h' : other.WF) :
    Makes (s.difference other) fun k => (s.look k).isSome && !(other.look k).isSome := by
  have hk : Makes (if (s.iter.filter fun m => !other.contains m).length = s.len then s
      else Kept.ofSorted (s.iter.filter fun m => !other.contains m))
      fun k => (s.look k).isSome && !(other.look k).isSome := by
    have hf := filter_makes h h' false
    simp only [beq_false] at hf
    split_ifs with hl
    · rw [Kept.len_eq, length_filter_eq_length_iff] at hl
      rw [filter_eq_self.mpr hl] at hf
      refine ⟨h, fun k => ?_⟩
      rw [← hf.2, (Kept.ofSorted_makes (Kept.ascending_iter h)).2]
      rfl
    · exact hf
  rw [difference]
  split
  · next t ht hl => exact differenceTree_makes h h' ht
  · exact hk

theorem makes_one : (memberKeys α).Makes (fun
      | (some m, none) | (none, some m) => some m
      | _ => none)
    fun ours theirs => if ours.isSome && theirs.isSome then none else ours.or theirs where
  none := rfl
  val a b := by cases a <;> cases b <;> rfl
  key {a b t} ht := by grind

theorem symmetricDifference_makes (h : s.WF) (h' : other.WF) :
    Makes (s.symmetricDifference other) fun k => (s.look k).isSome ^^ (other.look k).isSome := by
  have hsd : Makes (Kept.ofSorted (((memberKeys α).sideBySide s.iter other.iter).filterMap fun
        | (some m, none) | (none, some m) => some m
        | _ => none) : SetValue α M) fun k => (s.look k).isSome ^^ (other.look k).isSome := by
    refine makes_congr (makes_of_kept (Kept.sideBySide_makes h h' makes_one)) fun k => ?_
    cases s.look k <;> cases other.look k <;> rfl
  have htg {l sm : SetValue α M} (hl : l.WF) (hs : sm.WF) {t : M} (ht : l.tree? = some t) :
      Makes (Kept.ofTree (toggleAll sm.iter t) : SetValue α M)
        fun k => (l.look k).isSome ^^ (sm.look k).isSome := by
    have hlk k := look_toggleAll (Kept.ascending_iter hs) t k
    rw [Kept.look_tree? hl ht] at hlk
    refine makes_congr (makes_of_kept (Kept.ofTree_makes _)) fun k => ?_
    rw [hlk]
    change (if (sm.look k).isSome then if (l.look k).isSome then none else sm.look k
      else l.look k).isSome = _
    cases sm.look k <;> cases l.look k <;> rfl
  rcases Kept.bySize_eq s other with hsz | hsz
  · simp only [symmetricDifference, hsz]
    split_ifs with he
    · exact ⟨h, fun k => by simp [Kept.look_of_isEmpty he]⟩
    grind
  · simp only [symmetricDifference, hsz]
    split_ifs with he
    · exact ⟨h', fun k => by simp [Kept.look_of_isEmpty he]⟩
    grind

theorem isSome_look_of_mem (h : s.WF) {t : α} (ht : t ∈ s.iter) : (s.look t).isSome := by
  have hl : s.look t = some () := Keys.look_of_mem (Kept.ascending_iter h) ht ReflCmp.compare_self
  rw [hl]
  rfl

theorem isSubset_iff (h : s.WF) (h' : other.WF) :
    s.isSubset other = true ↔ ∀ k, (s.look k).isSome → (other.look k).isSome := by
  have ha : (s.iter.all fun m => other.contains m) = true ↔
      ∀ k, (s.look k).isSome → (other.look k).isSome := by
    rw [List.all_eq_true]
    constructor
    · intro hm k hk
      obtain ⟨v, hv⟩ := isSome_iff_exists.mp hk
      obtain ⟨t, ht, heq, -⟩ := Keys.exists_of_look hv
      rw [← contains_eq h', ← contains_congr h' heq]
      exact hm t ht
    · intro hs t ht
      rw [contains_eq h']
      exact hs t (isSome_look_of_mem h ht)
  rw [isSubset, and_eq_true, decide_eq_true_iff, ha, and_iff_right_of_imp]
  intro hs
  rw [Kept.len_eq, Kept.len_eq]
  exact Keys.length_le_of_look (Kept.ascending_iter h) fun t ht => hs t (isSome_look_of_mem h ht)

end SetValue

end Silt.Collections
