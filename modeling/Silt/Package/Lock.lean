import Silt.Package.Resolve

/-!
# Whether a lock reproduces its resolution

The lock has one entry for a package: the URL and the ref of the dependency that was the first to
reach it.  Another dependency on the same commit of the same repository finds its commit in the lock
only if it is written the same way.  So a lock reproduces the resolution that it was made by if and
only if the dependencies on one commit are `Uniform`.  Which dependency is the first depends on the
order of the dependencies in the world, by their symbols.

## Main definitions

* `ReachedGit` : a git dependency of a package that is reached, and its commit.
* `Uniform` : dependencies on one commit have one URL and one ref in the lock.
* `Resolution` : a run that left a lock.
* `Resolution.Reproduced` : reading the lock gives the same graph, and leaves it as it is.

## Main results

* `resolveGitUrl_eq_of_locked` : a URL is found again from what the lock writes for it.
* `pinnedCommit_lockfile` : the entry that a lock pins a dependency by.
* `reproduced_iff_uniform` : a lock reproduces its resolution if and only if `Uniform`.
-/

namespace Silt.Package

open List Option

variable {packages : List PackageNode} {ref : GitRef} {commit : String} {W : World} {base : Path}
  {policy : LockPolicy} {disk : Disk} {cfg : Config} {lock : Lockfile}

/-! ### Entries by their names -/

theorem sortByName_pairwise (packages : List LockedPackage) :
    (sortByName packages).Pairwise fun a b => a.name ≤ b.name :=
  pairwise_insertionSort _ packages

theorem sortByName_perm (packages : List LockedPackage) : (sortByName packages).Perm packages :=
  perm_insertionSort _ _

theorem sortByName_of_pairwise {packages : List LockedPackage}
    (h : packages.Pairwise fun a b => a.name ≤ b.name) : sortByName packages = packages :=
  h.insertionSort_eq

/-- The commit that an entry of the lock pins a URL at a ref to. -/
def pinOf (url : LockUrl) (ref : GitRef) : LockedSource → Option String
  | .git lockedUrl lockedRef sha =>
    if lockedUrl = url ∧ sameRef ref lockedRef = true then some sha else none
  | _ => none

theorem pinnedCommit_eq (lock : Lockfile) (url : LockUrl) (ref : GitRef) :
    pinnedCommit (some lock) url ref =
      (lock.packages.map LockedPackage.source).findSome? (pinOf url ref) := by
  rw [findSome?_map]
  rfl

/-- The entry of a package. -/
def entryOf (p : PackageNode) : LockedPackage :=
  ⟨p.manifest.name, p.manifest.version, p.locked, p.checksum⟩

theorem mem_lockfile {x : LockedPackage} :
    x ∈ (lockfile packages).packages ↔ ∃ p ∈ packages, entryOf p = x := by
  rw [lockfile, (sortByName_perm _).mem_iff, List.mem_map]
  rfl

/-- A lock pins a dependency by the first of its entries that have the URL and the ref. -/
theorem pinnedCommit_lockfile (hn : (packages.map fun p => p.manifest.name).Nodup) {url : LockUrl} :
    pinnedCommit (some (lockfile packages)) url ref = some commit ↔
      ∃ p ∈ packages, pinOf url ref p.locked = some commit ∧
        ∀ q ∈ packages, q.manifest.name < p.manifest.name → pinOf url ref q.locked = none := by
  have hsr : (lockfile packages).packages.Pairwise fun a b => a.name ≤ b.name :=
    sortByName_pairwise _
  have hd : (lockfile packages).packages.Pairwise fun a b => a.name ≠ b.name := by
    have hpr : ((lockfile packages).packages.map LockedPackage.name).Perm
        (packages.map fun p => p.manifest.name) := by
      have h := (sortByName_perm (packages.map entryOf)).map LockedPackage.name
      rw [List.map_map] at h
      exact h
    exact List.pairwise_map.mp (hpr.nodup_iff.mpr hn)
  rw [pinnedCommit, bind_some, findSome?_eq_some_iff]
  constructor
  · rintro ⟨front, a, back, hs, hpn, hnn⟩
    have hm : a ∈ (lockfile packages).packages := by simp [hs]
    obtain ⟨p, hp, rfl⟩ := mem_lockfile.mp hm
    refine ⟨p, hp, hpn, fun q hq hlt => ?_⟩
    have hq : entryOf q ∈ (lockfile packages).packages := mem_lockfile.mpr ⟨q, hq, rfl⟩
    rw [hs, mem_append, mem_cons] at hq
    rcases hq with hf | heq | hb
    · exact hnn _ hf
    · exact absurd (congrArg LockedPackage.name heq) (ne_of_lt hlt)
    · rw [hs, pairwise_append, pairwise_cons] at hsr
      exact absurd (hsr.2.1.1 _ hb) (not_le.mpr hlt)
  · rintro ⟨p, hp, hpn, hnn⟩
    obtain ⟨front, back, hs⟩ := append_of_mem (mem_lockfile.mpr ⟨p, hp, rfl⟩)
    refine ⟨front, entryOf p, back, hs, hpn, fun x hx => ?_⟩
    rw [hs, pairwise_append] at hsr hd
    have hle := hsr.2.2 x hx _ mem_cons_self
    have hne := hd.2.2 x hx _ mem_cons_self
    have hm : x ∈ (lockfile packages).packages := by simp [hs, hx]
    obtain ⟨q, hq, rfl⟩ := mem_lockfile.mp hm
    exact hnn q hq (lt_of_le_of_ne hle hne)

/-! ### URLs in the lock -/

/-- The lock's URL says which repository it is. -/
theorem resolveGitUrl_eq_of_locked {url url' : GitUrl} {base' : Path}
    (h : lockedGitUrl url base W.project = lockedGitUrl url' base' W.project) :
    resolveGitUrl url base = resolveGitUrl url' base' := by
  have hr : ∀ {parts base path}, relativePath W.project (urlPath parts base) = some path →
      path.absolute = false ∧ normalizePath (W.project.join path) = urlPath parts base := by
    intro parts base path hp
    refine ⟨?_, (normalizePath_join_relativePath_iff W.project_named
      (normalizePath_normal _).lossy hp).mpr fun p hp => ?_⟩
    swap
    · obtain ⟨p, -, rfl⟩ := mem_map.mp (mem_of_mem_drop hp)
      exact p.isText_lossy
    rw [relativePath] at hp
    split_ifs at hp
    exact Option.some.inj hp ▸ rfl
  cases url with
  | other text =>
    cases url' with
    | other text' => exact LockUrl.other.inj h
    | relative parts' =>
      rw [lockedGitUrl, lockedGitUrl] at h
      split at h
      · cases h
      · exact LockUrl.other.inj h
  | relative parts =>
    cases url' with
    | other text' =>
      rw [lockedGitUrl, lockedGitUrl] at h
      split at h
      · cases h
      · exact LockUrl.other.inj h
    | relative parts' =>
      rw [lockedGitUrl, lockedGitUrl] at h
      split at h
      · rename_i path hp
        split at h
        · rename_i path' hp'
          obtain ⟨ha, hn⟩ := hr hp
          obtain ⟨ha', hn'⟩ := hr hp'
          have heq : path = path' := by
            obtain ⟨a, ps⟩ := path
            obtain ⟨a', ps'⟩ := path'
            grind
          rw [resolveGitUrl, resolveGitUrl, ← hn, ← hn', heq]
        · cases h
      · split at h
        · cases h
        · exact LockUrl.other.inj h

/-! ### Dependencies on one commit -/

/-- A git dependency of a package that is reached, in the directory `base`, and its commit. -/
def ReachedGit (W : World) (cfg : Config) (base : Path) (written : GitUrl) (ref : GitRef)
    (commit : String) : Prop :=
  cfg.commit W base written ref = some commit ∧ ∃ source manifest entry,
    Reached W cfg source base manifest ∧ entry ∈ manifest.dependencies ∧
      entry.source = .git written ref

/-- The same branch, the same tag, or two revs. -/
def sameKind : GitRef → GitRef → Bool
  | .branch a, .branch b => a = b
  | .tag a, .tag b => a = b
  | .rev _, .rev _ => true
  | _, _ => false

/-- The name of the package of a source. -/
def World.nameOf (W : World) (source : SourceKey) : Option String :=
  (W.rootOf source).bind fun root => (W.manifest root).toOption.map Manifest.name

/-- The lock writes the dependencies on one commit alike, and a rev that starts another commit, too,
does not find that one first. -/
structure Uniform (W : World) (cfg : Config) : Prop where
  written : ∀ {base url ref base' url' ref' commit},
    ReachedGit W cfg base url ref commit → ReachedGit W cfg base' url' ref' commit →
    resolveGitUrl url base = resolveGitUrl url' base' →
    lockedGitUrl url base W.project = lockedGitUrl url' base' W.project ∧ sameKind ref ref' = true
  revs : ∀ {base url rev commit base' url' rev' commit' name name'},
    ReachedGit W cfg base url (.rev rev) commit → ReachedGit W cfg base' url' (.rev rev') commit' →
    lockedGitUrl url base W.project = lockedGitUrl url' base' W.project →
    sameRef (.rev rev) (.rev commit') = true →
    W.nameOf (.git (resolveGitUrl url base) commit) = some name →
    W.nameOf (.git (resolveGitUrl url' base') commit') = some name' → name' < name →
    commit' = commit

/-- The entries of a lock that has been read have of a rev the commit. -/
def RevsFull (existing : Option Lockfile) : Prop :=
  ∀ lock, existing = some lock → ∀ p ∈ lock.packages, ∀ url rev sha,
    p.source = .git url (.rev rev) sha → rev = sha

theorem revsFull_existingLock {existing : Option Lockfile}
    (h : existingLock policy disk = .ok existing) : RevsFull existing := by
  have hl : ∀ {existing}, load disk = .ok existing → RevsFull existing := by
    intro existing hl lock hlc p hp url rev sha hs
    subst hlc
    unfold load at hl
    split at hl
    · cases hl
    · cases hl
    · split_ifs at hl
      obtain rfl := Option.some.inj (Except.ok.inj hl)
      obtain ⟨q, -, rfl⟩ := List.mem_map.mp ((sortByName_perm _).mem_iff.mp hp)
      unfold LockedSource.asRead at hs
      grind
  cases policy with
  | refresh =>
    obtain rfl := Except.ok.inj h
    exact fun _ hlc => nomatch hlc
  | update | readOnly => exact hl h

theorem pinOf_eq_some {url lockUrl : LockUrl} {lockRef : GitRef} {sha : String} :
    pinOf url ref (.git lockUrl lockRef sha) = some commit ↔
      lockUrl = url ∧ sameRef ref lockRef = true ∧ sha = commit := by
  rw [pinOf, ite_none_right_eq_some, Option.some.injEq, and_assoc]

theorem sameRef_lockedRef (hfl : RevsFull cfg.existing) {written : GitUrl}
    (h : cfg.commit W base written ref = some commit) :
    sameRef ref (lockedRef ref commit) = true := by
  cases ref with
  | branch name | tag name => simp [lockedRef, sameRef]
  | rev rev =>
    rw [Config.commit] at h
    split at h
    · rename_i sha hpi
      obtain rfl := Option.some.inj h
      obtain ⟨lock, hl, hf⟩ := bind_eq_some_iff.mp hpi
      obtain ⟨p, hp, hpn⟩ := exists_of_findSome?_eq_some hf
      split at hpn
      · rename_i url lockRef sha' hs
        rw [ite_none_right_eq_some, Option.some.injEq] at hpn
        obtain ⟨⟨-, hsm⟩, rfl⟩ := hpn
        cases lockRef with
        | rev rev' => exact hfl lock hl p hp url rev' sha' hs ▸ hsm
        | branch name | tag name => cases hsm
      · cases hpn
    · split_ifs at h
      refine @World.resolveRef_rev W (resolveGitUrl written base) rev commit ?_
      cases hr : W.resolveRef (resolveGitUrl written base) (.rev rev) with
      | error text => simp [hr, Except.toOption] at h
      | ok c => simpa [hr, Except.toOption] using h

theorem sameRef_iff {ref' : GitRef} (h : sameRef ref (lockedRef ref commit) = true) :
    sameRef ref (lockedRef ref' commit) = true ↔ sameKind ref ref' = true := by
  cases ref with
  | rev rev =>
    cases ref' with
    | rev rev' => exact ⟨fun _ => rfl, fun _ => h⟩
    | _ => exact Iff.rfl
  | _ => cases ref' <;> exact Iff.rfl

/-! ### The lock of a run -/

/-- The end of a run without a problem. -/
structure Ends (W : World) (cfg : Config) (f : Resolver) : Prop where
  stage : Stage W cfg f.packages.length f
  full : RevsFull cfg.existing
  project : ∃ p, f.packages[0]? = some p ∧ p.source = .path W.project
  names : (f.packages.map fun p => p.manifest.name).Nodup

namespace Ends

variable {p : PackageNode} {ref : GitRef} {commit : String}

variable {W : World} {cfg : Config} {f : Resolver}

section

variable (h : Ends W cfg f)

include h

theorem eq_of_source {q : PackageNode} (hp : p ∈ f.packages)
    (hq : q ∈ f.packages) (hs : p.source = q.source) : p = q :=
  inj_on_of_nodup_map h.stage.known.nodup hp hq hs

theorem package_of_git {base : Path} {url : GitUrl} (hg : ReachedGit W cfg base url ref commit) :
    ∃ p ∈ f.packages, p.source = .git (resolveGitUrl url base) commit := by
  obtain ⟨hc, source, manifest, entry, hr, he, hd⟩ := hg
  obtain ⟨project, hpr, hpt⟩ := h.project
  obtain ⟨i, q, hq, -, rfl, rfl⟩ := h.stage.package_of_reached hpr hpt hr
  obtain ⟨e, -, hrs⟩ := resolves_of_mem (h.stage.linked (List.getElem?_eq_some_iff.mp hq).1 hq) he
  obtain ⟨p, hp, hs⟩ := hrs.dep
  rw [hd, sourceOf, hc, Option.map_some] at hs
  exact ⟨p, mem_of_getElem? hp, (Option.some.inj hs).symm⟩

theorem git_of_package (hp : p ∈ f.packages) {r : String} (hs : p.source = .git r commit) :
    ∃ base url ref, ReachedGit W cfg base url ref commit ∧ resolveGitUrl url base = r ∧
      p.locked = .git (lockedGitUrl url base W.project) (lockedRef ref commit) commit := by
  obtain ⟨i, hi⟩ := mem_iff_getElem?.mp hp
  cases h.stage.known.comes hi with
  | project source _ _ _ => rw [hs] at source; cases source
  | @dependency _ j _ q entry _ hq hen he =>
    have hto := he.source
    rw [hs] at hto
    cases hd : entry.source with
    | path path =>
      rw [hd, sourceOf] at hto
      simp at hto
    | git url ref =>
      rw [hd, sourceOf, map_eq_some_iff] at hto
      obtain ⟨c, hc, heq⟩ := hto
      obtain ⟨rfl, rfl⟩ := SourceKey.git.inj heq
      refine ⟨q.root, url, ref, ⟨hc, q.source, q.manifest, entry, ?_, hen, hd⟩, rfl, ?_⟩
      · exact h.stage.known.reached hq
      · rw [he.locked, hs, hd]
        rfl

theorem source_of_locked (hp : p ∈ f.packages) {url : LockUrl}
    (hl : p.locked = .git url ref commit) : ∃ r, p.source = .git r commit := by
  cases hs : p.source with
  | git r c =>
    obtain ⟨base, url', ref', -, -, hg⟩ := h.git_of_package hp hs
    grind
  | path root =>
    obtain ⟨i, hi⟩ := mem_iff_getElem?.mp hp
    cases h.stage.known.comes hi with
    | project _ _ locked _ => rw [locked] at hl; cases hl
    | @dependency _ j _ q entry _ _ _ he =>
      rw [he.locked, hs] at hl
      cases hd : entry.source with
      | path path | git url ref => rw [hd] at hl; cases hl

theorem source_of_pinOf (hp : p ∈ f.packages) {url : LockUrl}
    (hpn : pinOf url ref p.locked = some commit) : ∃ r, p.source = .git r commit := by
  cases hl : p.locked with
  | git url' ref' sha =>
    rw [hl, pinOf_eq_some] at hpn
    exact hpn.2.2 ▸ h.source_of_locked hp hl
  | path path | here => rw [hl] at hpn; cases hpn

theorem nameOf_source (hp : p ∈ f.packages) : W.nameOf p.source = some p.manifest.name := by
  obtain ⟨i, hi⟩ := mem_iff_getElem?.mp hp
  have hc := h.stage.known.comes hi
  rw [World.nameOf, hc.rootOf, bind_some, hc.manifest]
  rfl

end

/-- The lock of the run pins each git dependency to its commit. -/
def Pins (W : World) (cfg : Config) (f : Resolver) : Prop :=
  ∀ {base url ref commit}, ReachedGit W cfg base url ref commit →
    pinnedCommit (some (lockfile f.packages)) (lockedGitUrl url base W.project) ref = some commit

/-- A package that pins a dependency to its commit is the package of the dependency. -/
theorem pinned_package (h : Ends W cfg f) {base : Path} {url : GitUrl} (hp : p ∈ f.packages)
    (hpn : pinOf (lockedGitUrl url base W.project) ref p.locked = some commit) :
    p.source = .git (resolveGitUrl url base) commit := by
  obtain ⟨r, hs⟩ := h.source_of_pinOf hp hpn
  obtain ⟨base', url', ref', -, rfl, hl⟩ := h.git_of_package hp hs
  rw [hl, pinOf_eq_some] at hpn
  rw [hs, resolveGitUrl_eq_of_locked hpn.1]

end Ends

/-- The lock keeps a branch and a tag as they are. -/
theorem eq_of_sameRef {wanted : GitRef} (hw : ∀ rev, wanted ≠ .rev rev)
    (h : sameRef wanted (lockedRef ref commit) = true) : ref = wanted := by
  cases wanted with
  | rev rev => exact absurd rfl (hw rev)
  | branch name | tag name => cases ref <;> simp_all [sameRef, lockedRef]

theorem commit_congr (cfg : Config) {url url' : GitUrl} {base' : Path}
    (h : lockedGitUrl url base W.project = lockedGitUrl url' base' W.project) (ref : GitRef) :
    cfg.commit W base url ref = cfg.commit W base' url' ref := by
  rw [Config.commit, Config.commit, h, resolveGitUrl_eq_of_locked h]

theorem sameKind_trans {a b c : GitRef} (hab : sameKind a b = true) (hcb : sameKind c b = true) :
    sameKind a c = true := by
  cases a <;> cases b <;> cases c <;> simp_all [sameKind]

namespace Ends

variable {W : World} {cfg : Config} {f : Resolver}

/-- A dependency that is pinned to its commit is written as the entry of its package is. -/
theorem locked_of_pins (h : Ends W cfg f) (hpn : Pins W cfg f) {base : Path} {url : GitUrl}
    {ref : GitRef} {commit : String} (hg : ReachedGit W cfg base url ref commit) {p : PackageNode}
    (hp : p ∈ f.packages) (hs : p.source = .git (resolveGitUrl url base) commit) :
    pinOf (lockedGitUrl url base W.project) ref p.locked = some commit ∧
      ∀ q ∈ f.packages, q.manifest.name < p.manifest.name →
        pinOf (lockedGitUrl url base W.project) ref q.locked = none := by
  obtain ⟨q, hq, hpi, hf⟩ := (pinnedCommit_lockfile h.names).mp (hpn hg)
  obtain rfl := h.eq_of_source hq hp ((h.pinned_package hq hpi).trans hs.symm)
  exact ⟨hpi, hf⟩

/-- The lock pins each git dependency to its commit if and only if those on one commit are
uniform. -/
theorem pins_iff_uniform (h : Ends W cfg f) : Pins W cfg f ↔ Uniform W cfg := by
  constructor
  · intro hpi
    refine ⟨?_, ?_⟩
    · intro base url ref base' url' ref' commit hg hg' hr
      obtain ⟨p, hp, hs⟩ := h.package_of_git hg
      obtain ⟨base₀, url₀, ref₀, -, -, hl⟩ := h.git_of_package hp hs
      obtain ⟨hpin, -⟩ := h.locked_of_pins hpi hg hp hs
      obtain ⟨hpin', -⟩ := h.locked_of_pins hpi hg' hp (hr ▸ hs)
      rw [hl, pinOf_eq_some] at hpin hpin'
      have hk := (sameRef_iff (sameRef_lockedRef h.full hg.1)).mp hpin.2.1
      have hk' := (sameRef_iff (sameRef_lockedRef h.full hg'.1)).mp hpin'.2.1
      exact ⟨hpin.1.symm.trans hpin'.1, sameKind_trans hk hk'⟩
    · intro base url rev commit base' url' rev' commit' name name' hg hg' hur hsm hn hn' hlt
      obtain ⟨p, hp, hs⟩ := h.package_of_git hg
      obtain ⟨q, hq, hs'⟩ := h.package_of_git hg'
      rw [← hs, h.nameOf_source hp] at hn
      rw [← hs', h.nameOf_source hq] at hn'
      obtain ⟨-, hf⟩ := h.locked_of_pins hpi hg hp hs
      have hnn := hf q hq (by rw [Option.some.inj hn, Option.some.inj hn']; exact hlt)
      -- the entry of the other commit has the URL, and its commit starts with the rev
      obtain ⟨hpin', -⟩ := h.locked_of_pins hpi hg' hq hs'
      obtain ⟨base₀, url₀, ref₀, -, -, hl⟩ := h.git_of_package hq hs'
      rw [hl, pinOf_eq_some] at hpin'
      obtain ⟨hur', hsm', -⟩ := hpin'
      cases ref₀ with
      | rev rev₀ =>
        rw [hl, hur] at hnn
        have hso := pinOf_eq_some.mpr (⟨hur', hsm, rfl⟩ : _ ∧ _ ∧ commit' = commit')
        rw [lockedRef] at hnn
        rw [hso] at hnn
        cases hnn
      | branch name | tag name => cases hsm'
  · intro hu base url ref commit hg
    obtain ⟨p, hp, hs⟩ := h.package_of_git hg
    obtain ⟨base₀, url₀, ref₀, hg₀, hr₀, hl⟩ := h.git_of_package hp hs
    obtain ⟨hur, hk⟩ := hu.written hg hg₀ hr₀.symm
    have hm := (sameRef_iff (sameRef_lockedRef h.full hg.1)).mpr hk
    have hpin : pinOf (lockedGitUrl url base W.project) ref p.locked = some commit := by
      rw [hl, pinOf_eq_some]
      exact ⟨hur.symm, hm, rfl⟩
    have hfn : (pinnedCommit (some (lockfile f.packages)) (lockedGitUrl url base W.project)
        ref).isSome = true := by
      rw [pinnedCommit_eq, findSome?_isSome_iff]
      refine ⟨p.locked, ?_, by rw [hpin]; rfl⟩
      exact List.mem_map.mpr ⟨entryOf p, mem_lockfile.mpr ⟨p, hp, rfl⟩, rfl⟩
    obtain ⟨commit', hpn⟩ := isSome_iff_exists.mp hfn
    obtain ⟨q, hq, hpin', hf⟩ := (pinnedCommit_lockfile h.names).mp hpn
    rw [hpn, Option.some.injEq]
    rcases lt_trichotomy q.manifest.name p.manifest.name with hlt | heq | hlt
    · -- an entry in front of the package's own
      have hs' := h.pinned_package hq hpin'
      obtain ⟨base₁, url₁, ref₁, hg₁, hr₁, hl₁⟩ := h.git_of_package hq hs'
      rw [hl₁, pinOf_eq_some] at hpin'
      obtain ⟨hur₁, hsm₁, -⟩ := hpin'
      by_cases hw : ∃ rev, ref = .rev rev
      · obtain ⟨rev, rfl⟩ := hw
        cases ref₁ with
        | rev rev₁ =>
          refine hu.revs hg hg₁ hur₁.symm hsm₁ (hs ▸ h.nameOf_source hp) ?_ hlt
          rw [hr₁, ← hs', h.nameOf_source hq]
        | branch name | tag name => cases hsm₁
      · obtain rfl := eq_of_sameRef (not_exists.mp hw) hsm₁
        have hc := commit_congr cfg hur₁ ref₁
        rw [hg₁.1, hg.1] at hc
        exact Option.some.inj hc
    · obtain rfl := inj_on_of_nodup_map h.names hq hp heq
      exact Option.some.inj (hpin'.symm.trans hpin)
    · rw [hf p hp hlt] at hpin
      cases hpin

end Ends

/-! ### Reading the lock -/

/-- A lock that has the entries of the packages of a run, and no other checksum for a checkout. -/
structure Describes (lock : Lockfile) (packages : List PackageNode) : Prop where
  pins : lock.packages.map (fun p => (p.name, p.version, p.source)) =
    (lockfile packages).packages.map fun p => (p.name, p.version, p.source)
  checksums : ∀ p ∈ packages, ∀ url ref commit, p.locked = .git url ref commit →
    (lockedChecksum (some lock) url commit).any (· ≠ p.checksum) = false

namespace Describes

variable {lock : Lockfile} {packages : List PackageNode}

section

variable (h : Describes lock packages)

include h

theorem pinnedCommit_eq (url : LockUrl) (ref : GitRef) :
    pinnedCommit (some lock) url ref = pinnedCommit (some (lockfile packages)) url ref := by
  have hs := congrArg (List.map fun t => t.2.2) h.pins
  rw [List.map_map, List.map_map] at hs
  rw [Package.pinnedCommit_eq, Package.pinnedCommit_eq]
  exact congrArg _ hs

theorem mem {p : PackageNode} (hp : p ∈ packages) :
    ∃ x ∈ lock.packages, x.name = p.manifest.name ∧ x.source = p.locked := by
  have hm : (p.manifest.name, p.manifest.version, p.locked) ∈
      lock.packages.map fun p => (p.name, p.version, p.source) := by
    rw [h.pins]
    exact List.mem_map.mpr ⟨entryOf p, mem_lockfile.mpr ⟨p, hp, rfl⟩, rfl⟩
  grind

theorem staleReason_eq (W : World) (policy : LockPolicy) {p : PackageNode} (hp : p ∈ packages) :
    staleReason W ⟨policy, some lock⟩ p.manifest.name p.locked = none := by
  obtain ⟨x, hx, hn, hs⟩ := h.mem hp
  have hpl : x.source.samePlace p.locked W.project = true := by
    rw [hs]
    cases p.locked <;> simp [LockedSource.samePlace]
  cases policy with
  | readOnly =>
    refine if_pos (any_eq_true.mpr ⟨x, ?_, hpl⟩)
    exact mem_filter.mpr ⟨hx, decide_eq_true hn⟩
  | update | refresh => rfl

theorem visitAll_eq {W : World} {cfg : Config} {f s : Resolver} (hpc : f.packages = packages)
    (hed : Ends W cfg f) (hpi : Ends.Pins W cfg f) {fuel k : Nat} (hs : Stage W cfg k s)
    (hr : visitAll W cfg fuel s = some f) {policy : LockPolicy} (hpl : policy ≠ .refresh) :
    visitAll W ⟨policy, some lock⟩ fuel s = some f := by
  subst hpc
  refine visitAll_congr hs hr hed.stage.clean.diagnostics ?_
  intro id q entry t t' hq hen hle hf
  -- the source of a dependency is the same
  have hsr : ∀ {source}, sourceOf W cfg q.root entry.source = some source →
      sourceOf W ⟨policy, some lock⟩ q.root entry.source = some source := by
    intro source hto
    cases hd : entry.source with
    | path path => rw [hd] at hto; exact hto
    | git url ref =>
      rw [hd, sourceOf, map_eq_some_iff] at hto
      obtain ⟨commit, hc, rfl⟩ := hto
      have hpn := hpi (⟨hc, q.source, q.manifest, entry,
        hed.stage.known.reached hq, hen, hd⟩ : ReachedGit W cfg q.root url ref commit)
      rw [sourceOf, Config.commit, h.pinnedCommit_eq, hpn]
      rfl
  cases hf with
  | met hto hd => exact .met (hsr hto) hd
  | @entered p hn he =>
    have hp : p ∈ f.packages := hle.subset (by simp [Resolver.add])
    refine .entered hn { he with
      source := hsr he.source
      expected := ?_
      fresh := h.staleReason_eq W policy hp }
    cases hl : p.locked with
    | git url ref commit =>
      rw [Config.expected, if_neg hpl]
      exact h.checksums p hp url ref commit hl
    | path path | here => rfl

end

end Describes

/-! ### Runs that end -/

theorem names_of_duplicateNames (h : duplicateNames packages = []) :
    (packages.map fun p => p.manifest.name).Nodup := by
  rw [List.Nodup, List.pairwise_map, pairwise_iff_getElem]
  intro i j hi hj hlt heq
  have hm : ∀ {k} (hk : k < packages.length), k ∈ idsOf packages packages[i].manifest.name ↔
      packages[k].manifest.name = packages[i].manifest.name := by
    intro k hk
    simp [idsOf, hk]
  -- the second package of the name
  obtain ⟨k, hk⟩ : ∃ k, (idsOf packages packages[i].manifest.name)[1]? = some k := by
    have hin := (hm hi).mpr rfl
    have hjn := (hm hj).mpr heq.symm
    cases hid : idsOf packages packages[i].manifest.name with
    | nil => rw [hid] at hin; cases hin
    | cons a ids =>
      cases ids with
      | nil =>
        rw [hid, mem_singleton] at hin hjn
        omega
      | cons b ids => exact ⟨b, rfl⟩
  have hkm := mem_of_getElem? hk
  have hkl : k < packages.length := by
    have hr := (mem_filter.mp hkm).1
    simpa using hr
  have hn := (hm hkl).mp hkm
  have hd : Diagnostic.duplicatePackage packages[k].manifest.name
      (idsOf packages packages[k].manifest.name) ∈ duplicateNames packages := by
    refine mem_filterMap.mpr ⟨(packages[k], k), ?_, ?_⟩
    · rw [mk_mem_zipIdx_iff_getElem?]
      exact getElem?_eq_getElem hkl
    · simp only
      rw [hn, if_pos hk]
  rw [h] at hd
  cases hd

theorem resolvePackages_ok {disk' : Disk} {fuel : Nat} {graph : PackageGraph} :
    resolvePackages W policy disk fuel = some (.ok (graph, disk')) ↔
      ∃ manifest existing f change, W.manifest W.project = .ok manifest ∧
        existingLock policy disk = .ok existing ∧
        visitAll W ⟨policy, existing⟩ fuel (initial W manifest) = some f ∧ problems W f = [] ∧
        writeLock W ⟨policy, existing⟩ (lockfile f.packages) disk = .ok (change, disk') ∧
        graph = ⟨f.packages, f.deps, change⟩ := by
  rw [resolvePackages]
  constructor
  · intro h
    split at h
    · cases h
    · cases h
    · rename_i manifest existing hm he
      rw [map_eq_some_iff] at h
      grind
  grind

theorem ends_of_run {manifest : Manifest} {existing : Option Lockfile} {fuel : Nat} {f : Resolver}
    (hm : W.manifest W.project = .ok manifest) (he : existingLock policy disk = .ok existing)
    (hr : visitAll W ⟨policy, existing⟩ fuel (initial W manifest) = some f)
    (hp : problems W f = []) : Ends W ⟨policy, existing⟩ f := by
  rw [problems] at hp
  obtain ⟨⟨⟨hc, hn⟩, -⟩, -⟩ := by
    simpa only [append_eq_nil_iff] using hp
  obtain ⟨hs, hle⟩ := visitAll_spec (initial_stage hm) hr hc
  exact ⟨hs, revsFull_existingLock he, ⟨_, getElem?_of_le hle rfl, rfl⟩, names_of_duplicateNames hn⟩

/-! ### The lock that is left -/

namespace Ends

variable {W : World} {cfg : Config} {f : Resolver}

theorem eq_of_locked (h : Ends W cfg f) {p q : PackageNode} (hp : p ∈ f.packages)
    (hq : q ∈ f.packages) {url : LockUrl} {ref ref' : GitRef} {commit : String}
    (hl : p.locked = .git url ref commit) (hl' : q.locked = .git url ref' commit) : p = q := by
  obtain ⟨r, hs⟩ := h.source_of_locked hp hl
  obtain ⟨r', hs'⟩ := h.source_of_locked hq hl'
  obtain ⟨base, url₀, ref₀, -, rfl, hg⟩ := h.git_of_package hp hs
  obtain ⟨base', url₁, ref₁, -, rfl, hg'⟩ := h.git_of_package hq hs'
  have hu := (LockedSource.git.inj (hg.symm.trans hl)).1
  have hu' := (LockedSource.git.inj (hg'.symm.trans hl')).1
  refine h.eq_of_source hp hq ?_
  rw [hs, hs', resolveGitUrl_eq_of_locked (hu.trans hu'.symm)]

theorem load_lockfile (h : Ends W cfg f) :
    load (some (.ok (lockfile f.packages))) = .ok (some (lockfile f.packages)) := by
  have hrd : (lockfile f.packages).packages.map
      (fun p => { p with source := p.source.asRead }) = (lockfile f.packages).packages := by
    refine map_congr_left (g := id) (fun x hx => ?_) |>.trans (map_id _)
    obtain ⟨p, hp, rfl⟩ := mem_lockfile.mp hx
    have hs : p.locked.asRead = p.locked := by
      cases hl : p.locked with
      | git url ref commit =>
        obtain ⟨r, hs⟩ := h.source_of_locked hp hl
        obtain ⟨base, url₀, ref₀, -, -, hg⟩ := h.git_of_package hp hs
        rw [← hl, hg]
        cases ref₀ <;> rfl
      | path path | here => rfl
    change { entryOf p with source := p.locked.asRead } = entryOf p
    rw [hs]
    rfl
  have hr : (lockfile f.packages).readable = true := by
    refine all_eq_true.mpr fun x hx => ?_
    obtain ⟨p, hp, rfl⟩ := mem_lockfile.mp hx
    cases hl : p.locked with
    | git url ref commit =>
      obtain ⟨r, hs⟩ := h.source_of_locked hp hl
      obtain ⟨i, hi⟩ := mem_iff_getElem?.mp hp
      have hrt := (h.stage.known.comes hi).rootOf
      rw [hs, World.rootOf, map_eq_some_iff] at hrt
      obtain ⟨dir, hft, -⟩ := hrt
      cases hf : W.fetch r commit with
      | error e => simp [hf, Except.toOption] at hft
      | ok root =>
        simp only [entryOf, hl]
        exact W.fetch_full hf
    | path path | here => simp [entryOf, hl]
  rw [load]
  simp only [hr, if_true, hrd]
  rw [sortByName_of_pairwise]
  exact sortByName_pairwise _

theorem describes_lockfile (h : Ends W cfg f) : Describes (lockfile f.packages) f.packages := by
  refine ⟨rfl, fun p hp url ref commit hl => ?_⟩
  cases hs : lockedChecksum (some (lockfile f.packages)) url commit with
  | none => rfl
  | some checksum =>
    obtain ⟨x, hx, hf⟩ := exists_of_findSome?_eq_some hs
    obtain ⟨q, hq, rfl⟩ := mem_lockfile.mp hx
    split at hf
    · rename_i url' ref' sha hl'
      rw [ite_none_right_eq_some, Option.some.injEq] at hf
      obtain ⟨⟨rfl, rfl⟩, rfl⟩ := hf
      obtain rfl := h.eq_of_locked hp hq hl hl'
      simp [entryOf]
    · cases hf

/-- A lock that is kept, as it pins the same, describes the run. -/
theorem describes_kept {lock : Lockfile} {disk : Disk} (h : Ends W ⟨.update, some lock⟩ f)
    (hld : load disk = .ok (some lock)) (hpn : lock.samePins (lockfile f.packages) = true) :
    Describes lock f.packages := by
  have hs : sortByName lock.packages = lock.packages := by
    unfold load at hld
    split at hld
    · cases hld
    · cases hld
    · split_ifs at hld
      obtain rfl := Option.some.inj (Except.ok.inj hld)
      exact sortByName_of_pairwise (sortByName_pairwise _)
  have hf : sortByName (lockfile f.packages).packages = (lockfile f.packages).packages :=
    sortByName_of_pairwise (sortByName_pairwise _)
  constructor
  · have heq := of_decide_eq_true hpn
    simp only [hs, hf] at heq
    exact heq
  · intro p hp url ref commit hl
    obtain ⟨i, hi⟩ := mem_iff_getElem?.mp hp
    cases h.stage.known.comes hi with
    | project _ _ locked _ => rw [locked] at hl; cases hl
    | dependency _ _ _ hen =>
      have he := hen.expected
      rw [hl] at he
      exact he

end Ends

/-- The lock is kept, since it pins the same, or written. -/
theorem writeLock_ok {fresh : Lockfile} {disk' : Disk} {change : LockChange}
    (h : writeLock W cfg fresh disk = .ok (change, disk')) (hp : cfg.policy ≠ .readOnly) :
    (cfg.policy = .update ∧ (∃ old, cfg.existing = some old ∧ old.samePins fresh = true) ∧
      disk' = disk) ∨ disk' = some (.ok fresh) := by
  rw [writeLock] at h
  split_ifs at h with hk
  · obtain ⟨hu, hpn⟩ := hk.resolve_left hp
    refine Or.inl ⟨hu, ?_, (Prod.mk.inj (Except.ok.inj h)).2.symm⟩
    cases he : cfg.existing with
    | none => rw [he] at hpn; cases hpn
    | some old => exact ⟨old, rfl, by rw [he] at hpn; exact hpn⟩
  all_goals exact Or.inr (Prod.mk.inj (Except.ok.inj h)).2.symm

theorem writeLock_kept {fresh : Lockfile} (hp : policy ≠ .refresh)
    (h : lock.samePins fresh = true) :
    writeLock W ⟨policy, some lock⟩ fresh disk = .ok (.unchanged, disk) := by
  rw [writeLock, if_pos]
  cases policy with
  | readOnly => exact Or.inl rfl
  | update => exact Or.inr ⟨rfl, h⟩
  | refresh => exact absurd rfl hp

theorem Describes.samePins (h : Describes lock packages) :
    lock.samePins (lockfile packages) = true := by
  have hs : sortByName lock.packages = lock.packages := by
    refine sortByName_of_pairwise ?_
    have hn := congrArg (List.map Prod.fst) h.pins
    rw [List.map_map, List.map_map] at hn
    have hf := List.pairwise_map.mpr (sortByName_pairwise (packages.map fun p =>
        ⟨p.manifest.name, p.manifest.version, p.locked, p.checksum⟩))
    exact List.pairwise_map.mp (hn ▸ hf)
  have hf : sortByName (lockfile packages).packages = (lockfile packages).packages :=
    sortByName_of_pairwise (sortByName_pairwise _)
  refine decide_eq_true ?_
  simp only [hs, hf]
  exact h.pins

/-! ### A lock and its resolution -/

theorem getElem?_of_same {packages' : List PackageNode}
    (h : packages.map (fun p => (p.manifest.name, p.root, p.source)) =
      packages'.map fun p => (p.manifest.name, p.root, p.source)) {i : Nat} {p : PackageNode}
    (hp : packages'[i]? = some p) :
    ∃ q, packages[i]? = some q ∧ q.root = p.root ∧ q.source = p.source := by
  have hi := congrArg (·[i]?) h
  grind

theorem both_of_mem {cfg' : Config} {id : Nat} {packages' : List PackageNode}
    {entries : List DependencyEntry} {edges : List Edge}
    (h : List.Forall₂ (Resolves W cfg id base packages) entries edges)
    (h' : List.Forall₂ (Resolves W cfg' id base packages') entries edges) {entry : DependencyEntry}
    (he : entry ∈ entries) :
    ∃ e, Resolves W cfg id base packages entry e ∧ Resolves W cfg' id base packages' entry e := by
  induction h with
  | nil => cases he
  | @cons first e _ _ hr _ ih =>
    cases h' with
    | cons hr' hrs' => grind

/-- A run that may not write and gives the same graph has found each commit in the lock. -/
theorem Ends.pins_of_same {f f' : Resolver} (h : Ends W cfg f)
    (h' : Ends W ⟨.readOnly, some lock⟩ f') (hl : Describes lock f.packages)
    (hpc : f'.packages.map (fun p => (p.manifest.name, p.root, p.source)) =
      f.packages.map fun p => (p.manifest.name, p.root, p.source)) (hd : f'.deps = f.deps) :
    Ends.Pins W cfg f := by
  rintro base url ref commit ⟨hc, source, manifest, entry, hrc, he, hdp⟩
  obtain ⟨project, hpr, hpt⟩ := h.project
  obtain ⟨i, q, hq, -, rfl, rfl⟩ := h.stage.package_of_reached hpr hpt hrc
  obtain ⟨q', hq', hrt, -⟩ := getElem?_of_same hpc hq
  have hm : q'.manifest = q.manifest := by
    have hm' := (h'.stage.known.comes hq').manifest
    rw [hrt, (h.stage.known.comes hq).manifest] at hm'
    exact (Except.ok.inj hm').symm
  have hl' := h'.stage.linked (List.getElem?_eq_some_iff.mp hq').1 hq'
  rw [hrt, hm, hd] at hl'
  obtain ⟨e, hr, hr'⟩ := both_of_mem (h.stage.linked (List.getElem?_eq_some_iff.mp hq).1 hq) hl' he
  obtain ⟨p, hp, hs⟩ := hr.dep
  obtain ⟨p', hp', hs'⟩ := hr'.dep
  obtain ⟨p'', hp'', -, heq⟩ := getElem?_of_same hpc hp
  obtain rfl := Option.some.inj (hp'.symm.trans hp'')
  rw [hdp, sourceOf, hc, Option.map_some] at hs
  rw [hdp, sourceOf, heq, ← hs, map_eq_some_iff] at hs'
  obtain ⟨commit', hc', hg⟩ := hs'
  obtain rfl : commit' = commit := (SourceKey.git.inj hg).2
  rw [Config.commit, hl.pinnedCommit_eq] at hc'
  grind

/-- A run with leave to write that succeeded, and the lock that it left. -/
structure Resolution (W : World) where
  policy : LockPolicy
  writes : policy ≠ .readOnly
  before : Disk
  fuel : Nat
  graph : PackageGraph
  lock : Lockfile
  run : resolvePackages W policy before fuel = some (.ok (graph, some (.ok lock)))

/-- The same packages from the same sources and commits, and the same dependencies. -/
def PackageGraph.Same (g g' : PackageGraph) : Prop :=
  g.packages.map (fun p => (p.manifest.name, p.root, p.source)) =
      g'.packages.map (fun p => (p.manifest.name, p.root, p.source)) ∧
    g.deps = g'.deps

namespace Resolution

variable {W : World}

/-- The lock that the run could use. -/
def existing (r : Resolution W) : Option Lockfile :=
  (existingLock r.policy r.before).toOption.getD none

def config (r : Resolution W) : Config :=
  ⟨r.policy, r.existing⟩

/-- Read again, the lock gives the same graph; and it is left as it is. -/
def Reproduced (r : Resolution W) : Prop :=
  (∃ fuel graph disk,
      resolvePackages W .readOnly (some (.ok r.lock)) fuel = some (.ok (graph, disk)) ∧
        graph.Same r.graph) ∧
    ∃ fuel graph,
      resolvePackages W .update (some (.ok r.lock)) fuel =
          some (.ok (graph, some (.ok r.lock))) ∧
        graph.lock = .unchanged

/-- The end of the run, and what the lock that it left is read as. -/
theorem spec (r : Resolution W) :
    ∃ manifest f lock, W.manifest W.project = .ok manifest ∧
      visitAll W r.config r.fuel (initial W manifest) = some f ∧ problems W f = [] ∧
      Ends W r.config f ∧ r.graph.packages = f.packages ∧ r.graph.deps = f.deps ∧
      load (some (.ok r.lock)) = .ok (some lock) ∧ Describes lock f.packages := by
  obtain ⟨manifest, existing, f, change, hm, he, hr, hpr, hw, hg⟩ := resolvePackages_ok.mp r.run
  have hc : r.config = ⟨r.policy, existing⟩ := by
    rw [config, Resolution.existing, he]
    rfl
  have hen := ends_of_run hm he hr hpr
  obtain ⟨lock, hl, hd⟩ : ∃ lock, load (some (.ok r.lock)) = .ok (some lock) ∧
      Describes lock f.packages := by
    rcases writeLock_ok hw r.writes with ⟨hp, ⟨old, ho, hpn⟩, hds⟩ | hds
    · simp only at hp ho
      subst ho
      rw [hp] at he hen
      rw [hds]
      exact ⟨old, he, hen.describes_kept he hpn⟩
    · rw [hds]
      exact ⟨_, hen.load_lockfile, hen.describes_lockfile⟩
  grind

end Resolution

/-- A lock reproduces the resolution that it was made by if and only if the dependencies on one
commit are uniform. -/
theorem reproduced_iff_uniform {W : World} (r : Resolution W) :
    r.Reproduced ↔ Uniform W r.config := by
  obtain ⟨manifest, f, lock, hm, hrn, hpr, hen, hpc, hd, hld, hl⟩ := r.spec
  rw [← hen.pins_iff_uniform]
  constructor
  · rintro ⟨⟨fuel, graph, disk, hr, hs⟩, -⟩
    obtain ⟨manifest', existing, f', change, hm', he, hrn', hpr', -, rfl⟩ :=
      resolvePackages_ok.mp hr
    obtain rfl : some lock = existing := Except.ok.inj (hld.symm.trans he)
    have hen' := ends_of_run hm' he hrn' hpr'
    obtain ⟨hn, hed⟩ := hs
    rw [hpc] at hn
    intro base url ref commit hg
    exact hen.pins_of_same hen' hl hn (hed.trans hd) hg
  · intro hpn
    have ha : ∀ policy, policy ≠ .refresh → resolvePackages W policy (some (.ok r.lock)) r.fuel =
          some (.ok (⟨f.packages, f.deps, .unchanged⟩, some (.ok r.lock))) := by
      intro policy hp
      have he : existingLock policy (some (.ok r.lock)) = .ok (some lock) := by
        cases policy with
        | refresh => exact absurd rfl hp
        | _ => exact hld
      have hv := hl.visitAll_eq rfl hen hpn (initial_stage hm) hrn hp
      exact resolvePackages_ok.mpr ⟨manifest, some lock, f, .unchanged, hm, he, hv,
        hpr, writeLock_kept hp hl.samePins, rfl⟩
    refine ⟨⟨r.fuel, _, _, ha .readOnly (by decide), ?_, hd.symm⟩, r.fuel, _,
      ha .update (by decide), rfl⟩
    rw [hpc]

/-- A run that succeeds gives the graph of the manifests: its packages are those that the manifests
reach from the project, one of a source and one of a name, and the edges from a package are its
dependencies in the order of the loaded map, each to the package of its source. -/
theorem graph_of_manifests {W : World} (r : Resolution W) :
    (∀ source root manifest, Reached W r.config source root manifest ↔
      ∃ p ∈ r.graph.packages, p.source = source ∧ p.root = root ∧ p.manifest = manifest) ∧
    (r.graph.packages.map PackageNode.source).Nodup ∧
    (r.graph.packages.map fun p => p.manifest.name).Nodup ∧
    ∀ i p, r.graph.packages[i]? = some p →
      List.Forall₂ (Resolves W r.config i p.root r.graph.packages) p.manifest.dependencies
        (r.graph.deps.filter (·.package = i)) := by
  obtain ⟨_, f, _, -, -, -, hen, hp, hd, -⟩ := r.spec
  rw [hp, hd]
  obtain ⟨project, hpr, hs⟩ := hen.project
  refine ⟨fun source root manifest => ⟨fun hrc => ?_, ?_⟩, hen.stage.known.nodup, hen.names,
    fun i p hi => hen.stage.linked (List.getElem?_eq_some_iff.mp hi).1 hi⟩
  · obtain ⟨i, p, hi, hp⟩ := hen.stage.package_of_reached hpr hs hrc
    exact ⟨p, mem_of_getElem? hi, hp⟩
  · rintro ⟨p, hm, rfl, rfl, rfl⟩
    obtain ⟨i, hi⟩ := mem_iff_getElem?.mp hm
    exact hen.stage.known.reached hi

/-! ### A branch and a tag on one commit -/

/-- The commit that the branch and the tag are on. -/
def headCommit : String :=
  "0123456789012345678901234567890123456789"

/-- A directory at the root. -/
def directory (name : String) : Path :=
  ⟨true, [.name (utf8 name)]⟩

/-- `app` depends on the branch `main` of a repository, and on `tools`, which depends on the tag
`v1` of the same repository.  The branch and the tag are on one commit. -/
def branchAndTag : World where
  project := directory "app"
  project_named := by simp [Named, directory]
  manifest root :=
    if root = directory "app" then
      .ok ⟨"app", "0.1.0", [⟨"lib", 0, .git (.other "https://github.com/foo/calc")
        (.branch "main")⟩,
        ⟨"tools", 1, .path ⟨false, [.up, .name (utf8 "tools")]⟩⟩]⟩
    else if root = directory "tools" then
      .ok ⟨"tools", "0.1.0", [⟨"lib", 0, .git (.other "https://github.com/foo/calc") (.tag "v1")⟩]⟩
    else .ok ⟨"lib", "0.1.0", []⟩
  pathExists _ := true
  isPackage _ := true
  canonical root := root
  checksum _ := .ok "sha256:0"
  isModule _ _ := false
  resolveRef _ ref :=
    match ref with
    | .rev _ => .error "not found"
    | _ => .ok headCommit
  resolveRef_rev := nofun
  fetch _ commit := if commit = headCommit then .ok (directory "cache") else .error (.other "")
  fetch_full := by
    intro url commit root h
    split_ifs at h with hcommit
    rw [hcommit]
    decide
  lockWritable := true

/-- Updating in that project: the lock has the branch. -/
def branchAndTagUpdate : Resolution branchAndTag where
  policy := .update
  writes := by decide
  before := none
  fuel := 3
  graph := _
  lock := ⟨[⟨"app", "0.1.0", .here, ""⟩,
    ⟨"lib", "0.1.0", .git (.other "https://github.com/foo/calc") (.branch "main") headCommit,
      "sha256:0"⟩,
    ⟨"tools", "0.1.0", .path ⟨false, [.up, .name (utf8 "tools")]⟩, "sha256:0"⟩]⟩
  run := rfl

/-- The lock that was just written is stale for the tag. -/
theorem not_reproduced_branchAndTag : ¬ branchAndTagUpdate.Reproduced := by
  rintro ⟨⟨fuel, graph, disk, hr, -⟩, -⟩
  -- three packages are visited, the last of them `tools`
  have hs : ∀ n, resolvePackages branchAndTag .readOnly
      (some (.ok branchAndTagUpdate.lock)) (n + 4) =
        some (.error [.lockfileStale 2 "lib" .noPin]) := fun _ => rfl
  match fuel with
  | n + 4 =>
    cases hr

end Silt.Package
