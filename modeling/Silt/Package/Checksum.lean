import Mathlib.Data.List.Sort

/-!
# The checksum of a package

What is hashed of a package: its manifest and the `.silt` files below `src`, each as its path and
the hash of its bytes, in the order of the paths.  A name is the UTF-8 of a string; there are no
symbolic links.

## Main definitions

* `Tree` : the entries of a directory, as it lists them.
* `checksumPathSource` : the bytes that the checksum is the hash of.

## Main results

* `checksumPathSource_eq_iff` : which packages have a checksum, and that the bytes tell the files
  that are read and the hash of each.
-/

namespace Silt.Package.Checksum

open List

/-- A name of a file: UTF-8 without a `/` and without a NUL. -/
structure FileName where
  bytes : List UInt8
  utf8 : (String.fromUTF8? ⟨bytes.toArray⟩).isSome
  plain : 47 ∉ bytes ∧ 0 ∉ bytes
  deriving DecidableEq

/-- What is behind the last `.` of a name, unless it is the first character. -/
def FileName.extension (name : FileName) : Option (List UInt8) :=
  let (after, before) := name.bytes.reverse.span (· != 46)
  if before.length ≤ 1 then none else some after.reverse

/-- The entries of a directory, as it lists them. -/
inductive Tree
  | nil
  | file (name : FileName) (bytes : List UInt8) (rest : Tree)
  | dir (name : FileName) (entries rest : Tree)

namespace Tree

def names : Tree → List FileName
  | nil => []
  | file name _ rest | dir name _ rest => name :: rest.names

/-- No directory has two entries of one name. -/
def Distinct : Tree → Prop
  | nil => True
  | file name _ rest => name ∉ rest.names ∧ rest.Distinct
  | dir name entries rest => name ∉ rest.names ∧ entries.Distinct ∧ rest.Distinct

instance instDecidableDistinct : (t : Tree) → Decidable t.Distinct
  | nil => .isTrue trivial
  | file _ _ rest => @instDecidableAnd _ _ _ (instDecidableDistinct rest)
  | dir _ entries rest =>
    @instDecidableAnd _ _ _
      (@instDecidableAnd _ _ (instDecidableDistinct entries) (instDecidableDistinct rest))

/-- The file at the path. -/
def At : Tree → List FileName → List UInt8 → Prop
  | nil, _, _ => False
  | file name bytes rest, path, b => path = [name] ∧ b = bytes ∨ rest.At path b
  | dir name entries rest, path, b =>
    (∃ below, path = name :: below ∧ entries.At below b) ∨ rest.At path b

end Tree

/-- What is at a path. -/
inductive Entry
  | file (bytes : List UInt8)
  | dir (tree : Tree)

/-- A package: what is at `silt.toml` and at `src`, and what else its directory has. -/
structure PathSource where
  manifest : Option Entry
  source : Option Entry
  others : Tree
  distinct : ∀ tree, source = some (.dir tree) → tree.Distinct

/-- The SHA-256 of a file's bytes, in hexadecimal. -/
structure FileHash where
  hash : List UInt8 → List UInt8
  length : ∀ bytes, (hash bytes).length = 64

/-- A path and the hash of its file. -/
abbrev Hashed := List UInt8 × List UInt8

def siltToml : FileName := ⟨[115, 105, 108, 116, 46, 116, 111, 109, 108], by decide, by decide⟩

def src : FileName := ⟨[115, 114, 99], by decide, by decide⟩

def relpath (path : List FileName) : List UInt8 := [47].intercalate (path.map FileName.bytes)

variable (H : FileHash)

/-- Hash the `.silt` files of a directory, keyed by their path. -/
def collectSiltFiles (dir : List FileName) : Tree → List Hashed
  | .nil => []
  | .file name bytes rest =>
    (if name.extension = some [115, 105, 108, 116] then [(relpath (dir ++ [name]), H.hash bytes)]
      else []) ++ collectSiltFiles dir rest
  | .dir name entries rest => collectSiltFiles (dir ++ [name]) entries ++ collectSiltFiles dir rest

/-- Why a package has no checksum: its manifest cannot be read. -/
inductive ChecksumError
  | io

def manifestEntries (p : PathSource) : Except ChecksumError (List Hashed) :=
  match p.manifest with
  | some (.file bytes) => .ok [(relpath [siltToml], H.hash bytes)]
  | some (.dir _) => .error .io
  | none => .ok []

def sourceEntries (p : PathSource) : List Hashed :=
  match p.source with
  | some (.dir tree) => collectSiltFiles H [src] tree
  | _ => []

def sorted (entries : List Hashed) : List Hashed :=
  entries.mergeSort fun a b => a.1 ≤ b.1

/-- What an entry adds to the hash. -/
def update (entry : Hashed) : List UInt8 := entry.1 ++ 0 :: (entry.2 ++ [10])

/-- The bytes given to the outer hash. -/
def checksumPathSource (p : PathSource) : Except ChecksumError (List UInt8) :=
  (manifestEntries H p).map fun entries => (sorted (entries ++ sourceEntries H p)).flatMap update

/-! ### What is read of a package -/

/-- The path below `src` is one of a `.silt` file. -/
def IsSilt (below : List FileName) : Prop :=
  ∃ name ∈ below.getLast?, name.extension = some [115, 105, 108, 116]

/-- The file at the path is read: the manifest, or a `.silt` file below `src`. -/
def PathSource.Reads (p : PathSource) (path : List FileName) (b : List UInt8) : Prop :=
  path = [siltToml] ∧ p.manifest = some (.file b) ∨ ∃ below tree, path = src :: below ∧
    p.source = some (.dir tree) ∧ tree.At below b ∧ IsSilt below

variable {H} {t : Tree} {p q : PathSource} {path below : List FileName} {name : FileName}
  {b : List UInt8} {e : Hashed} {es : List Hashed}

theorem Tree.At.head (h : t.At path b) : ∃ name below, path = name :: below ∧ name ∈ t.names := by
  induction t with
  | nil => cases h
  | file name bytes rest ih =>
    rcases h with ⟨rfl, -⟩ | h
    · exact ⟨name, [], rfl, mem_cons_self⟩
    · obtain ⟨n, below, rfl, hn⟩ := ih h
      exact ⟨n, below, rfl, mem_cons_of_mem _ hn⟩
  | dir name entries rest _ ih =>
    rcases h with ⟨below, rfl, -⟩ | h
    · exact ⟨name, below, rfl, mem_cons_self⟩
    · obtain ⟨n, below, rfl, hn⟩ := ih h
      exact ⟨n, below, rfl, mem_cons_of_mem _ hn⟩

theorem mem_collectSiltFiles (dir : List FileName) :
    e ∈ collectSiltFiles H dir t ↔
      ∃ below b, t.At below b ∧ IsSilt below ∧ e = (relpath (dir ++ below), H.hash b) := by
  induction t generalizing dir with
  | nil => simp [collectSiltFiles, Tree.At]
  | file name bytes rest ih =>
    rw [collectSiltFiles, mem_append, ih]
    constructor
    · rintro (h | ⟨below, b, hat, h⟩)
      · split_ifs at h with hs
        · exact ⟨[name], bytes, .inl ⟨rfl, rfl⟩, ⟨name, rfl, hs⟩, mem_singleton.mp h⟩
        · cases h
      · exact ⟨below, b, .inr hat, h⟩
    · rintro ⟨below, b, ⟨rfl, rfl⟩ | hat, ⟨n, hn, hs⟩, rfl⟩
      · grind
      · exact .inr ⟨below, b, hat, ⟨n, hn, hs⟩, rfl⟩
  | dir name entries rest ihe ih =>
    rw [collectSiltFiles, mem_append, ih, ihe]
    constructor
    · rintro (⟨below, b, hat, ⟨n, hn, hs⟩, rfl⟩ | ⟨below, b, hat, h⟩)
      · refine ⟨name :: below, b, .inl ⟨below, rfl, hat⟩, ⟨n, ?_, hs⟩, by simp⟩
        rw [getLast?_cons, Option.mem_def.mp hn]
        rfl
      · exact ⟨below, b, .inr hat, h⟩
    · rintro ⟨_, b, ⟨below, rfl, hat⟩ | hat, ⟨n, hn, hs⟩, rfl⟩
      · obtain ⟨n', below', rfl, -⟩ := hat.head
        rw [getLast?_cons_cons] at hn
        exact .inl ⟨_, b, hat, ⟨n, hn, hs⟩, by simp⟩
      · exact .inr ⟨_, b, hat, ⟨n, hn, hs⟩, rfl⟩

/-! ### Paths -/

theorem relpath_inj {path path' : List FileName} (hne : path ≠ []) (hne' : path' ≠ [])
    (h : relpath path = relpath path') : path = path' := by
  have hs {path : List FileName} (hne : path ≠ []) :
      (relpath path).splitOn 47 = path.map FileName.bytes := by
    refine splitOn_intercalate 47 (fun bytes hb => ?_) (by simpa using hne)
    obtain ⟨name, -, rfl⟩ := mem_map.mp hb
    exact name.plain.1
  have hm : path.map FileName.bytes = path'.map FileName.bytes := by
    rw [← hs hne, h, hs hne']
  refine map_injective_iff.mpr (fun a b hab => ?_) hm
  cases a
  cases b
  simpa using hab

theorem zero_not_mem_relpath (path : List FileName) : 0 ∉ relpath path := by
  induction path with
  | nil => simp [relpath]
  | cons name path ih =>
    cases path with
    | nil => simpa [relpath] using name.plain.2
    | cons next path =>
      rw [relpath, map_cons, map_cons, intercalate_cons_cons]
      simpa [name.plain.2, relpath] using ih

/-- The paths of an entry and of those behind it differ. -/
theorem disjoint_collectSiltFiles {rest : Tree} (dir : List FileName) (hnm : name ∉ rest.names)
    (hes : ∀ e ∈ es, ∃ below, e.1 = relpath (dir ++ name :: below)) :
    (es.map Prod.fst).Disjoint ((collectSiltFiles H dir rest).map Prod.fst) := by
  intro key hx hr
  obtain ⟨e, he, rfl⟩ := mem_map.mp hx
  obtain ⟨e', he', heq⟩ := mem_map.mp hr
  obtain ⟨below, hb⟩ := hes e he
  obtain ⟨below', b, hat, -, rfl⟩ := (mem_collectSiltFiles dir).mp he'
  obtain ⟨n, below'', rfl, hn⟩ := hat.head
  have hp := append_cancel_left (relpath_inj (by simp) (by simp) (heq.trans hb))
  exact hnm ((List.cons.inj hp).1 ▸ hn)

theorem nodup_collectSiltFiles (h : t.Distinct) (dir : List FileName) :
    ((collectSiltFiles H dir t).map Prod.fst).Nodup := by
  induction t generalizing dir with
  | nil => exact nodup_nil
  | file name bytes rest ih =>
    rw [collectSiltFiles, map_append]
    refine .append ?_ (ih h.2 dir) (disjoint_collectSiltFiles dir h.1 fun e he => ?_)
    · split_ifs <;> simp
    grind
  | dir name entries rest ihe ih =>
    rw [collectSiltFiles, map_append]
    refine .append (ihe h.2.1 _) (ih h.2.2 dir) (disjoint_collectSiltFiles dir h.1 fun e he => ?_)
    obtain ⟨below, b, -, -, rfl⟩ := (mem_collectSiltFiles _).mp he
    exact ⟨below, by simp⟩

theorem PathSource.Reads.ne_nil (h : p.Reads path b) : path ≠ [] := by
  obtain ⟨rfl, -⟩ | ⟨_, _, rfl, -⟩ := h <;> simp

theorem mem_entries (h : manifestEntries H p = .ok es) :
    e ∈ es ++ sourceEntries H p ↔ ∃ path b, p.Reads path b ∧ e = (relpath path, H.hash b) := by
  have hm : e ∈ es ↔ ∃ b, p.manifest = some (.file b) ∧ e = (relpath [siltToml], H.hash b) := by
    unfold manifestEntries at h
    split at h <;> cases h <;> simp [*]
  have hs : e ∈ sourceEntries H p ↔ ∃ tree, p.source = some (.dir tree) ∧
      ∃ below b, tree.At below b ∧ IsSilt below ∧ e = (relpath (src :: below), H.hash b) := by
    unfold sourceEntries
    split
    · simp [*, mem_collectSiltFiles]
    grind
  rw [mem_append, hm, hs]
  constructor
  · rintro (⟨b, hb, rfl⟩ | ⟨tree, ht, below, b, hat, hsl, rfl⟩)
    · exact ⟨_, b, .inl ⟨rfl, hb⟩, rfl⟩
    · exact ⟨_, b, .inr ⟨below, tree, rfl, ht, hat, hsl⟩, rfl⟩
  · rintro ⟨_, b, ⟨rfl, hb⟩ | ⟨below, tree, rfl, ht, hat, hsl⟩, rfl⟩
    · exact .inl ⟨b, hb, rfl⟩
    · exact .inr ⟨tree, ht, below, b, hat, hsl, rfl⟩

theorem nodup_entries (h : manifestEntries H p = .ok es) :
    ((es ++ sourceEntries H p).map Prod.fst).Nodup := by
  unfold manifestEntries at h
  unfold sourceEntries
  split
  · next tree ht =>
    have hnodup := @nodup_collectSiltFiles H tree (p.distinct tree ht) [src]
    split at h <;> cases h
    · refine nodup_cons.mpr ⟨fun hm => ?_, hnodup⟩
      obtain ⟨e, he, heq⟩ := mem_map.mp hm
      obtain ⟨below, b, -, -, rfl⟩ := (mem_collectSiltFiles _).mp he
      have hp := (List.cons.inj (relpath_inj (by simp) (by simp) heq)).1
      exact absurd hp (by decide)
    · exact hnodup
  · split at h <;> cases h <;> simp

/-! ### Bytes -/

theorem append_zero_inj {xs ys us vs : List UInt8} (hx : 0 ∉ xs) (hu : 0 ∉ us)
    (h : xs ++ 0 :: ys = us ++ 0 :: vs) : xs = us ∧ ys = vs := by
  induction xs generalizing us with
  | nil =>
    cases us with
    | nil => simpa using h
    | cons u us => grind
  | cons x xs ih =>
    cases us with
    | nil => grind
    | cons u us => grind

theorem flatMap_update_inj {es es' : List Hashed} (hes : ∀ e ∈ es ++ es', 0 ∉ e.1 ∧ e.2.length = 64)
    (h : es.flatMap update = es'.flatMap update) : es = es' := by
  induction es generalizing es' with
  | nil =>
    cases es' with
    | nil => rfl
    | cons e es' => simp [update] at h
  | cons e es ih =>
    cases es' with
    | nil => simp [update] at h
    | cons e' es' =>
      obtain ⟨⟨hz, hl⟩, ⟨hz', hl'⟩⟩ := And.intro (hes e (by simp)) (hes e' (by simp))
      simp only [flatMap_cons, update, append_assoc, cons_append] at h
      obtain ⟨hp, h⟩ := append_zero_inj hz hz' h
      obtain ⟨hh, h⟩ := append_inj h (hl.trans hl'.symm)
      rw [Prod.ext hp hh, ih (fun e he => hes e ?_) (List.cons.inj h).2]
      grind

theorem sorted_eq_iff {es es' : List Hashed} (h : (es.map Prod.fst).Nodup)
    (h' : (es'.map Prod.fst).Nodup) : sorted es = sorted es' ↔ es ⊆ es' ∧ es' ⊆ es := by
  have hp (es : List Hashed) : (sorted es).Perm es := mergeSort_perm es _
  have hsr (es : List Hashed) : (sorted es).Pairwise fun a b => a.1 ≤ b.1 := by
    have hs := @pairwise_mergeSort _ (fun a b : Hashed => a.1 ≤ b.1)
      (by simpa using fun _ _ _ => List.le_trans) (by simpa using List.le_total) es
    simpa [sorted] using hs
  constructor
  · grind
  · rintro ⟨hsb, hsb'⟩
    have hes : es.Perm es' := (perm_ext_iff_of_nodup (h.of_map _) (h'.of_map _)).mpr
      fun e => ⟨@hsb e, @hsb' e⟩
    refine Perm.eq_of_pairwise (fun a b ha hb hab hba => ?_) (hsr es) (hsr es')
      ((hp es).trans (hes.trans (hp es').symm))
    exact inj_on_of_nodup_map h ((hp es).mem_iff.mp ha)
      (hsb' ((hp es').mem_iff.mp hb)) (List.le_antisymm hab hba)

/-- The entries are those of the files that are read. -/
def Lists (H : FileHash) (p : PathSource) (es : List Hashed) : Prop :=
  ∀ e, e ∈ es ↔ ∃ path b, p.Reads path b ∧ e = (relpath path, H.hash b)

theorem exists_of_checksumPathSource {x : List UInt8} (h : checksumPathSource H p = .ok x) :
    ∃ es, Lists H p es ∧ (es.map Prod.fst).Nodup ∧ x = (sorted es).flatMap update := by
  rw [checksumPathSource] at h
  cases hm : manifestEntries H p with
  | error e => simp [hm, Except.map] at h
  | ok es =>
    refine ⟨es ++ sourceEntries H p, fun e => mem_entries hm, nodup_entries hm, ?_⟩
    simpa [hm, Except.map, eq_comm] using h

/-- The entries of one package are among those of another where its files are, but for their
bytes. -/
theorem Lists.subset_iff {es' : List Hashed} (h : Lists H p es) (h' : Lists H q es') :
    es ⊆ es' ↔ ∀ path b, p.Reads path b → ∃ b', q.Reads path b' ∧ H.hash b = H.hash b' := by
  constructor
  · intro hs path b hb
    obtain ⟨path', b', hb', heq⟩ := (h' _).mp (hs ((h _).mpr ⟨path, b, hb, rfl⟩))
    obtain ⟨hp, hh⟩ := Prod.mk.inj heq
    obtain rfl := relpath_inj hb.ne_nil hb'.ne_nil hp
    exact ⟨b', hb', hh⟩
  · intro hr e he
    obtain ⟨path, b, hb, rfl⟩ := (h e).mp he
    obtain ⟨b', hb', hh⟩ := hr path b hb
    exact (h' _).mpr ⟨path, b', hb', by rw [hh]⟩

theorem checksumPathSource_eq_ok_iff :
    (∃ x, checksumPathSource H p = .ok x) ↔ ∀ tree, p.manifest ≠ some (.dir tree) := by
  unfold checksumPathSource manifestEntries
  split <;> simp [*, Except.map]

theorem eq_iff_of_checksumPathSource {x y : List UInt8} (hx : checksumPathSource H p = .ok x)
    (hy : checksumPathSource H q = .ok y) :
    x = y ↔ (∀ path, (∃ b, p.Reads path b) ↔ ∃ b, q.Reads path b) ∧
      ∀ path b b', p.Reads path b → q.Reads path b' → H.hash b = H.hash b' := by
  obtain ⟨es, hes, hnodup, rfl⟩ := exists_of_checksumPathSource hx
  obtain ⟨es', hes', hnodup', rfl⟩ := exists_of_checksumPathSource hy
  have hen (e : Hashed) (he : e ∈ sorted es ++ sorted es') : 0 ∉ e.1 ∧ e.2.length = 64 := by
    have hr : ∃ path b, e = (relpath path, H.hash b) := by
      rcases mem_append.mp he with he | he
      · obtain ⟨path, b, -, h⟩ := (hes e).mp ((mergeSort_perm _ _).mem_iff.mp he)
        exact ⟨path, b, h⟩
      · obtain ⟨path, b, -, h⟩ := (hes' e).mp ((mergeSort_perm _ _).mem_iff.mp he)
        exact ⟨path, b, h⟩
    obtain ⟨path, b, rfl⟩ := hr
    exact ⟨zero_not_mem_relpath path, H.length b⟩
  have hby : (sorted es).flatMap update = (sorted es').flatMap update ↔ es ⊆ es' ∧ es' ⊆ es := by
    rw [← sorted_eq_iff hnodup hnodup']
    exact ⟨flatMap_update_inj hen, fun h => by rw [h]⟩
  rw [hby, hes.subset_iff hes', hes'.subset_iff hes]
  constructor
  · rintro ⟨hpq, hqp⟩
    refine ⟨fun path => ⟨fun ⟨b, hb⟩ => ?_, fun ⟨b, hb⟩ => ?_⟩, fun path b b' hb hb' => ?_⟩
    · exact (hpq path b hb).imp fun _ h => h.1
    · exact (hqp path b hb).imp fun _ h => h.1
    · -- of a path there is one entry
      obtain ⟨b'', hb'', hh⟩ := hpq path b hb
      rw [hh]
      exact congrArg Prod.snd (inj_on_of_nodup_map hnodup' ((hes' _).mpr ⟨path, b'', hb'', rfl⟩)
        ((hes' _).mpr ⟨path, b', hb', rfl⟩) rfl)
  grind

/-- A package has a checksum unless its manifest is a directory.  The bytes that are hashed of two
packages are the same exactly where the same paths are read of the two and the files at each path
have one hash. -/
theorem checksumPathSource_eq_iff (H : FileHash) (p q : PathSource) :
    ((∃ x, checksumPathSource H p = .ok x) ↔ ∀ tree, p.manifest ≠ some (.dir tree)) ∧
    ∀ x y, checksumPathSource H p = .ok x → checksumPathSource H q = .ok y →
      (x = y ↔ (∀ path, (∃ b, p.Reads path b) ↔ ∃ b, q.Reads path b) ∧
        ∀ path b b', p.Reads path b → q.Reads path b' → H.hash b = H.hash b') :=
  ⟨checksumPathSource_eq_ok_iff, fun _ _ => eq_iff_of_checksumPathSource⟩

/-- A hash of the first 64 bytes. -/
def firstBytes : FileHash :=
  ⟨fun bytes => (bytes ++ replicate 64 48).take 64, fun bytes => by simp⟩

def mainSilt : FileName :=
  ⟨[109, 97, 105, 110, 46, 115, 105, 108, 116], by decide, by decide⟩

def lib : FileName := ⟨[108, 105, 98], by decide, by decide⟩

/-- `src/main.silt` and `src/lib/main.silt`, which has one byte. -/
def mainAndLib (byte : UInt8) : Tree :=
  .file mainSilt [1] (.dir lib (.file mainSilt [byte] .nil) .nil)

/-- The same files, listed the other way round. -/
def libAndMain : Tree := .dir lib (.file mainSilt [2] .nil) (.file mainSilt [1] .nil)

def withSources (tree : Tree) (h : tree.Distinct) (others : Tree) : PathSource :=
  ⟨some (.file [91, 93]), some (.dir tree), others, fun _ ht => by cases ht; exact h⟩

/-- The files of two packages that are listed in another order, beside other files, give the same
bytes; another byte in `src/lib/main.silt` gives others. -/
theorem checksumPathSource_eq_iff_nested :
    let p := withSources (mainAndLib 2) (by decide) .nil
    let q := withSources libAndMain (by decide) (.file lib [3] .nil)
    let r := withSources (mainAndLib 3) (by decide) .nil
    ∃ x z, checksumPathSource firstBytes p = .ok x ∧ checksumPathSource firstBytes q = .ok x ∧
      checksumPathSource firstBytes r = .ok z ∧ x ≠ z := by
  intro p q r
  obtain ⟨x, hx⟩ := (checksumPathSource_eq_iff firstBytes p q).1.mpr nofun
  obtain ⟨y, hy⟩ := (checksumPathSource_eq_iff firstBytes q p).1.mpr nofun
  obtain ⟨z, hz⟩ := (checksumPathSource_eq_iff firstBytes r p).1.mpr nofun
  have hpq : p.Reads = q.Reads := by
    funext path b
    simp [p, q, withSources, PathSource.Reads, mainAndLib, libAndMain, Tree.At, or_comm]
  have hxy : x = y := ((checksumPathSource_eq_iff firstBytes p q).2 x y hx hy).mpr
    (hpq ▸ ((checksumPathSource_eq_iff firstBytes p p).2 x x hx hx).mp rfl)
  have hs : IsSilt [lib, mainSilt] := ⟨mainSilt, rfl, by decide⟩
  have hat (byte : UInt8) : (mainAndLib byte).At [lib, mainSilt] [byte] :=
    .inr (.inl ⟨_, rfl, .inl ⟨rfl, rfl⟩⟩)
  refine ⟨x, z, hx, hxy ▸ hy, hz, fun h => ?_⟩
  have hh := (((checksumPathSource_eq_iff firstBytes p r).2 x z hx hz).mp h).2
    [src, lib, mainSilt] [2] [3] (.inr ⟨_, _, rfl, rfl, hat 2, hs⟩)
    (.inr ⟨_, _, rfl, rfl, hat 3, hs⟩)
  exact absurd hh (by decide)

end Silt.Package.Checksum
