import Silt.Lib.Utf8

/-!
# Paths

The paths that manifests and lock files write, as their parts.  A dependency's path is joined to the
directory of its manifest and made normal without a look at the file system; the lock writes the
result relative to the project's directory.  A name is any bytes, as the file system has it; what is
written is text.  Prefixes, of drives, are left out.

## Main definitions

* `Path.join`, `normalizePath` : a path from a directory, without its `..`.
* `relativePath` : a path as seen from a directory.

## Main results

* `normalizePath_join_relativePath_iff` : what is written relative to a directory is found from it
  where its names are text.
* `normalizePath_keeps_place` : which paths lead to one place before and after they are made normal.
-/

namespace Silt.Package

open List

/-- A part of a path; a `.` is none. -/
inductive Part
  | up
  | name (bytes : List UInt8)
deriving DecidableEq

structure Path where
  absolute : Bool
  parts : List Part
deriving DecidableEq

/-- The path as seen from a directory. -/
def Path.join (base path : Path) : Path :=
  if path.absolute then path else ⟨base.absolute, base.parts ++ path.parts⟩

/-- One part more.  Only from the root, or from nowhere, does a `..` stay; one more takes it away
again. -/
def pushPart (out : List Part) : Part → List Part
  | .up => if out = [] then [.up] else out.dropLast
  | .name bytes => out ++ [.name bytes]

/-- The path without `..` behind a name. -/
def normalizePath (path : Path) : Path :=
  ⟨path.absolute, path.parts.foldl pushPart []⟩

/-- The part as text. -/
def Part.text : Part → String
  | .up => ".."
  | .name bytes => toStringLossy bytes

/-- The part as it is read again from its text. -/
def Part.lossy : Part → Part
  | .up => .up
  | .name bytes => .name (utf8 (toStringLossy bytes))

/-- How many parts two paths start with in common. -/
def shared : List Part → List Part → Nat
  | p :: ps, q :: qs => if p = q then shared ps qs + 1 else 0
  | _, _ => 0

/-- The path that leads from the directory `base` to `target`, as it is read from its text. -/
def relativePath (base target : Path) : Option Path :=
  if base.absolute ≠ target.absolute then none
  else
    let n := shared base.parts target.parts
    some ⟨false,
      List.replicate (base.parts.length - n) .up ++ (target.parts.drop n).map Part.lossy⟩

/-! ### Names and `..` -/

/-- The parts have names. -/
def Named (parts : List Part) : Prop :=
  .up ∉ parts

/-- Names, with at most one `..` in front of them. -/
def Normal (parts : List Part) : Prop :=
  Named parts ∨ ∃ rest, parts = .up :: rest ∧ Named rest

theorem foldl_pushPart_named {parts : List Part} (h : Named parts) (out : List Part) :
    parts.foldl pushPart out = out ++ parts := by
  induction parts generalizing out with
  | nil => simp
  | cons p ps ih =>
    rw [Named, List.mem_cons, not_or] at h
    cases p with
    | up => exact absurd rfl h.1
    | name bytes => rw [foldl_cons, ih h.2, pushPart, append_assoc, singleton_append]

theorem foldl_pushPart_up (out : List Part) {n : Nat} (h : n ≤ out.length) :
    (List.replicate n Part.up).foldl pushPart out = out.take (out.length - n) := by
  induction n generalizing out with
  | zero => simp
  | succ n ih =>
    have hne : out ≠ [] := by
      rintro rfl
      simp at h
    rw [replicate_succ, foldl_cons, pushPart, if_neg hne, ih _ (by simp; omega),
      dropLast_eq_take, take_take, length_take]
    congr 1
    omega

/-! ### Where a path leads -/

/-- One part more: a `..` takes a name away, or climbs where there is none. -/
def climb (place : Nat × List Part) : Part → Nat × List Part
  | .up => if place.2 = [] then (place.1 + 1, []) else (place.1, place.2.dropLast)
  | .name bytes => (place.1, place.2 ++ [.name bytes])

/-- Where a path leads: how many directories up, and by which names from there. -/
def Path.leads (path : Path) : Nat × List Part :=
  path.parts.foldl climb (0, [])

theorem foldl_pushPart_climb (parts out : List Part) (place : Nat × List Part) (h : Named place.2) :
    Named (parts.foldl climb place).2 ∧
    parts.foldl pushPart ((List.replicate place.1 Part.up).foldl pushPart out ++ place.2) =
      (List.replicate (parts.foldl climb place).1 Part.up).foldl pushPart out ++
        (parts.foldl climb place).2 := by
  induction parts generalizing place with
  | nil => exact ⟨h, rfl⟩
  | cons p ps ih =>
    obtain ⟨ups, names⟩ := place
    have hs : Named (climb (ups, names) p).2 ∧
        pushPart ((List.replicate ups Part.up).foldl pushPart out ++ names) p =
          (List.replicate (climb (ups, names) p).1 Part.up).foldl pushPart out ++
            (climb (ups, names) p).2 := by
      cases p with
      | name bytes => exact ⟨by simpa [climb, Named] using h, by simp [pushPart, climb]⟩
      | up =>
        by_cases hn : names = []
        · simp [climb, hn, Named, replicate_succ', foldl_append]
        · simp only [climb, pushPart, append_eq_nil_iff, hn, and_false,
            if_false, dropLast_append_of_ne_nil hn, and_true]
          exact fun hm => h (dropLast_subset _ hm)
    simp only [foldl_cons]
    rw [hs.2]
    exact ih _ hs.1

theorem leads_named (path : Path) : Named path.leads.2 :=
  (foldl_pushPart_climb path.parts [] (0, []) (by simp [Named])).1

/-- From anywhere a path climbs first, and then goes by its names. -/
theorem foldl_pushPart_leads (path : Path) (out : List Part) :
    path.parts.foldl pushPart out =
      (List.replicate path.leads.1 Part.up).foldl pushPart out ++ path.leads.2 := by
  simpa [Path.leads] using (foldl_pushPart_climb path.parts out (0, []) (by simp [Named])).2

/-- From the root, or from nowhere, every other `..` takes the one before it away. -/
theorem foldl_pushPart_ups (ups : Nat) :
    (List.replicate ups Part.up).foldl pushPart [] = List.replicate (ups % 2) .up := by
  induction ups with
  | zero => rfl
  | succ ups ih =>
    rw [replicate_succ', foldl_append, ih]
    rcases Nat.mod_two_eq_zero_or_one ups with h | h
    · simp [pushPart, h, Nat.add_mod]
    · simp [pushPart, h, Nat.add_mod]

theorem parts_normalizePath (path : Path) :
    (normalizePath path).parts = List.replicate (path.leads.1 % 2) .up ++ path.leads.2 := by
  rw [normalizePath, foldl_pushPart_leads, foldl_pushPart_ups]

theorem normalizePath_idem (path : Path) :
    normalizePath (normalizePath path) = normalizePath path := by
  have hp := parts_normalizePath path
  rw [normalizePath, hp, foldl_append, foldl_pushPart_ups, Nat.mod_mod,
    foldl_pushPart_named (leads_named path), ← hp]

theorem foldl_pushPart_normalizePath (path : Path) (out : List Part) :
    (normalizePath path).parts.foldl pushPart out =
      (List.replicate (path.leads.1 % 2) Part.up).foldl pushPart out ++ path.leads.2 := by
  rw [parts_normalizePath, foldl_append, foldl_pushPart_named (leads_named path)]

theorem normalizePath_normal (path : Path) : Normal (normalizePath path).parts := by
  rw [parts_normalizePath]
  rcases Nat.mod_two_eq_zero_or_one path.leads.1 with h | h
  · exact Or.inl (by simpa [h] using leads_named path)
  · exact Or.inr ⟨path.leads.2, by simp [h], leads_named path⟩

/-! ### A path from a directory -/

theorem take_shared (ps qs : List Part) : ps.take (shared ps qs) = qs.take (shared ps qs) := by
  induction ps generalizing qs with
  | nil => cases qs <;> rfl
  | cons p ps ih =>
    cases qs with
    | nil => rfl
    | cons q qs =>
      rw [shared]
      grind

theorem shared_le (ps qs : List Part) : shared ps qs ≤ ps.length := by
  induction ps generalizing qs with
  | nil => cases qs <;> exact Nat.le_refl _
  | cons p ps ih =>
    cases qs with
    | nil => exact Nat.zero_le _
    | cons q qs =>
      rw [shared]
      grind

/-- The part is the same as text: its name is UTF-8. -/
def Part.IsText : Part → Prop
  | .up => True
  | .name bytes => ∃ s, utf8 s = bytes

theorem Part.lossy_eq_iff (p : Part) : p.lossy = p ↔ p.IsText := by
  cases p with
  | up => exact iff_of_true rfl trivial
  | name bytes => rw [Part.lossy, Part.name.injEq, utf8_toStringLossy_iff, Part.IsText]

theorem Part.isText_lossy (p : Part) : p.lossy.IsText := by
  cases p with
  | up => trivial
  | name bytes => exact ⟨_, rfl⟩

theorem Named.lossy {parts : List Part} (h : Named parts) : Named (parts.map Part.lossy) := by
  intro hm
  obtain ⟨p, hp, hl⟩ := mem_map.mp hm
  cases p with
  | up => exact h hp
  | name bytes => cases hl

theorem Normal.lossy {parts : List Part} (h : Normal parts) : Normal (parts.map Part.lossy) := by
  rcases h with h | ⟨rest, rfl, h⟩
  · exact .inl h.lossy
  · exact .inr ⟨_, rfl, h.lossy⟩

/-- A path written relative to a directory leads from the directory to where it was, but for names
that are no text. -/
theorem normalizePath_join_relativePath {base target path : Path} (hb : Named base.parts)
    (ht : Normal target.parts) (h : relativePath base target = some path) :
    normalizePath (base.join path) = ⟨target.absolute,
      target.parts.take (shared base.parts target.parts) ++
        (target.parts.drop (shared base.parts target.parts)).map Part.lossy⟩ := by
  rw [relativePath] at h
  split_ifs at h with ha
  have ha : base.absolute = target.absolute := by simpa using ha
  simp only [Option.some.injEq] at h
  obtain ⟨tabs, tparts⟩ := target
  subst h ha
  have hle := shared_le base.parts tparts
  have hu : (base.parts ++ List.replicate (base.parts.length - shared base.parts tparts)
      Part.up).foldl pushPart [] = tparts.take (shared base.parts tparts) := by
    rw [foldl_append, foldl_pushPart_named hb, nil_append,
      foldl_pushPart_up _ (Nat.sub_le _ _), Nat.sub_sub_self hle, take_shared]
  rw [normalizePath, Path.join, if_neg Bool.false_ne_true]
  congr 1
  change (base.parts ++ (_ ++ (tparts.drop _).map Part.lossy)).foldl pushPart [] = _
  rw [← append_assoc, foldl_append, hu]
  rcases ht with hn | ⟨rest, rfl, hn⟩
  · have hd : Named (tparts.drop (shared base.parts tparts)) := fun hm => hn (mem_of_mem_drop hm)
    rw [foldl_pushPart_named hd.lossy]
  · -- nothing is shared with a path that starts with `..`
    have hz : shared base.parts (.up :: rest) = 0 := by
      cases hpr : base.parts with
      | nil => rfl
      | cons p ps =>
        refine if_neg fun hp => hb ?_
        rw [hpr, hp]
        exact mem_cons_self
    rw [hz, take_zero, drop_zero, map_cons, foldl_cons, Part.lossy, pushPart, if_pos rfl,
      foldl_pushPart_named hn.lossy]
    rfl

theorem normalizePath_join_relativePath_iff {base target path : Path} (hb : Named base.parts)
    (ht : Normal target.parts) (h : relativePath base target = some path) :
    normalizePath (base.join path) = target ↔
      ∀ p ∈ target.parts.drop (shared base.parts target.parts), p.IsText := by
  rw [normalizePath_join_relativePath hb ht h]
  obtain ⟨tabs, tparts⟩ := target
  generalize shared base.parts tparts = n
  rw [Path.mk.injEq, eq_self, true_and]
  have hd : (tparts.drop n).map Part.lossy = (tparts.drop n).map id ↔
      ∀ p ∈ tparts.drop n, p.IsText :=
    map_inj_left.trans (forall₂_congr fun p _ => p.lossy_eq_iff)
  have hc := append_cancel_left_eq (tparts.take n) ((tparts.drop n).map Part.lossy) (tparts.drop n)
  rw [take_append_drop] at hc
  rw [← hd, map_id, ← hc]

/-! ### Paths that keep their place -/

/-- A path with `..` only in front, and none behind the root. -/
def Path.IsNormal (path : Path) : Prop :=
  ∃ ups names, path.parts = List.replicate ups .up ++ names ∧ Named names ∧
    (path.absolute → ups = 0)

/-- The path is written in the normal form of where it leads, from whatever directory. -/
def KeepsPlace (path : Path) : Prop :=
  (normalizePath path).IsNormal ∧ normalizePath (normalizePath path) = normalizePath path ∧
  ∀ base : Path, base.absolute →
    normalizePath (base.join path) = normalizePath (base.join (normalizePath path))

theorem isNormal_normalizePath {path : Path} (h : path.absolute → path.leads.1 % 2 = 0) :
    (normalizePath path).IsNormal :=
  ⟨_, _, parts_normalizePath path, leads_named path, h⟩

theorem keepsPlace_of_absolute {path : Path} (ha : path.absolute) :
    KeepsPlace path ↔ path.leads.1 % 2 = 0 := by
  constructor
  · rintro ⟨⟨ups, names, hp, hn, hu⟩, -⟩
    rw [parts_normalizePath, hu ha, replicate_zero, nil_append] at hp
    rcases Nat.mod_two_eq_zero_or_one path.leads.1 with h | h
    · exact h
    · exact absurd (by simp [← hp, h]) hn
  · intro he
    refine ⟨isNormal_normalizePath fun _ => he, normalizePath_idem path, fun base _ => ?_⟩
    rw [Path.join, if_pos ha, Path.join, if_pos (show (normalizePath path).absolute from
      ha), normalizePath_idem]

theorem keepsPlace_of_relative {path : Path} (hr : path.absolute = false) :
    KeepsPlace path ↔ path.leads.1 ≤ 1 := by
  have hj : ∀ base : Path, normalizePath (base.join path) =
      ⟨base.absolute, (List.replicate path.leads.1 Part.up).foldl pushPart
        (base.parts.foldl pushPart []) ++ path.leads.2⟩ := fun base => by
    simp [Path.join, hr, normalizePath, foldl_pushPart_leads path]
  have hn : ∀ base : Path, normalizePath (base.join (normalizePath path)) =
      ⟨base.absolute, (List.replicate (path.leads.1 % 2) Part.up).foldl pushPart
        (base.parts.foldl pushPart []) ++ path.leads.2⟩ := fun base => by
    rw [← foldl_pushPart_normalizePath, Path.join, normalizePath, normalizePath]
    simp [hr]
  constructor
  · rintro ⟨-, -, hp⟩
    -- a directory just deep enough to climb out of
    have hd : Named (List.replicate path.leads.1 (.name [])) := by simp [Named]
    have h := hp ⟨true, List.replicate path.leads.1 (.name [])⟩ rfl
    rw [hj, hn, foldl_pushPart_named hd, nil_append, foldl_pushPart_up _ (by simp),
      foldl_pushPart_up _ (by simp; omega)] at h
    have hl := congrArg length (append_cancel_right (congrArg Path.parts h))
    simp at hl
    omega
  · intro hu
    have hm : path.leads.1 % 2 = path.leads.1 := Nat.mod_eq_of_lt (by omega)
    refine ⟨isNormal_normalizePath (by simp [hr]), normalizePath_idem path, fun base _ => ?_⟩
    rw [hj, hn, hm]

theorem named_of_isNormal {path : Path} (ha : path.absolute) (h : path.IsNormal) :
    Named path.parts := by
  obtain ⟨ups, names, hp, hn, hu⟩ := h
  rwa [hp, hu ha, replicate_zero, nil_append]

/-- A path keeps its place where it climbs at most one directory, and behind the root where it
climbs an even number of times: of two `..` in front the second takes the first away.  A path that
is written relative to a directory leads from there to where it was, if the names by which it goes
on from what the two share are text. -/
theorem normalizePath_keeps_place (path base target : Path) :
    (KeepsPlace path ↔
      if path.absolute then path.leads.1 % 2 = 0 else path.leads.1 ≤ 1) ∧
    (base.absolute → target.absolute → base.IsNormal → target.IsNormal →
      ∃ path, relativePath base target = some path ∧
        (normalizePath (base.join path) = target ↔
          ∀ p ∈ target.parts.drop (shared base.parts target.parts), p.IsText)) := by
  refine ⟨?_, fun hb ht hn hn' => ?_⟩
  · split_ifs with ha
    · exact keepsPlace_of_absolute ha
    · exact keepsPlace_of_relative (by simpa using ha)
  · have hs : (relativePath base target).isSome := by simp [relativePath, hb, ht]
    obtain ⟨path, hp⟩ := Option.isSome_iff_exists.mp hs
    exact ⟨path, hp, normalizePath_join_relativePath_iff (named_of_isNormal hb hn)
      (Or.inl (named_of_isNormal ht hn')) hp⟩

/-- A name that is no text is written as another. -/
example : relativePath ⟨true, []⟩ ⟨true, [.name [0xFF]]⟩ =
    some ⟨false, [.name [0xEF, 0xBF, 0xBD]]⟩ := by
  decide

/-- The path `../../x` leads from `/a/b` to `/x`, and its normal form to `/a/b/x`. -/
theorem normalizePath_two_ups :
    let path : Path := ⟨false, [.up, .up, .name [120]]⟩
    let base : Path := ⟨true, [.name [97], .name [98]]⟩
    normalizePath (base.join path) = ⟨true, [.name [120]]⟩ ∧
    normalizePath (base.join (normalizePath path)) =
      ⟨true, [.name [97], .name [98], .name [120]]⟩ ∧
    ¬ KeepsPlace path := by
  refine ⟨by decide, by decide, ?_⟩
  rintro ⟨-, -, hp⟩
  have h := hp ⟨true, [.name [97], .name [98]]⟩ rfl
  revert h
  decide

end Silt.Package
