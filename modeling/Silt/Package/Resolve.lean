import Silt.Package.Graph

/-!
# What the resolver finds

A run that reports nothing goes through the dependencies of each package in turn.  Each leads to a
source, which is a package met before or becomes one.  So the packages are what the manifests reach
from the project, and each dependency is an edge to the package of its source, in the order in which
the world's manifests have them.

## Main definitions

* `sourceOf` : the source that a dependency leads to.
* `Reached` : the packages that the manifests reach from the project.
* `Follows` : one dependency of a run that reports nothing.
* `Known`, `Resolves` : what the packages are, and what the edges lead to.

## Main results

* `follow_cases`, `Follows.eq` : a dependency is followed without a report if and only if `Follows`.
* `visitAll_spec` : the packages and the edges of a run.
* `visitAll_congr` : two runs whose steps are the same have the same result.
-/

namespace Silt.Package

open List Option

/-! ### Where dependencies lead -/

/-- The commit of a git dependency, if it is known or resolved. -/
def Config.commit (W : World) (cfg : Config) (base : Path) (written : GitUrl) (ref : GitRef) :
    Option String :=
  match pinnedCommit cfg.existing (lockedGitUrl written base W.project) ref with
  | some commit => some commit
  | none =>
    if cfg.policy = .readOnly ∧ cfg.existing.isSome = true then none
    else (W.resolveRef (resolveGitUrl written base) ref).toOption

/-- The source that a dependency leads to, of a package in the directory `base`. -/
def sourceOf (W : World) (cfg : Config) (base : Path) : Dependency → Option SourceKey
  | .path path =>
    let dir := normalizePath (base.join path)
    if W.pathExists dir = true ∧ W.isPackage dir = true then some (.path (W.canonical dir))
    else none
  | .git written ref => (cfg.commit W base written ref).map (.git (resolveGitUrl written base))

/-- The directory of a source. -/
def World.rootOf (W : World) : SourceKey → Option Path
  | .path root => some root
  | .git url commit => (W.fetch url commit).toOption.map W.canonical

/-- The entry of the lock for a source that the dependency was the first to lead to. -/
def lockedOf (W : World) (base : Path) (dep : Dependency) (source : SourceKey) : LockedSource :=
  match dep, source with
  | .path _, .path root => .path ((relativePath W.project root).getD root)
  | .git written ref, .git _ commit =>
    .git (lockedGitUrl written base W.project) (lockedRef ref commit) commit
  | _, _ => .here

/-- The checksum that the lock asks for. -/
def Config.expected (cfg : Config) : LockedSource → Option String
  | .git url _ commit =>
    if cfg.policy = .refresh then none else lockedChecksum cfg.existing url commit
  | _ => none

/-- The packages that the manifests reach from the project: source, directory and manifest. -/
inductive Reached (W : World) (cfg : Config) : SourceKey → Path → Manifest → Prop
  | project {manifest : Manifest} (h : W.manifest W.project = .ok manifest) :
      Reached W cfg (.path W.project) W.project manifest
  | dependency {source source' : SourceKey} {base root : Path} {manifest manifest' : Manifest}
      {entry : DependencyEntry} (hfrom : Reached W cfg source base manifest)
      (hentry : entry ∈ manifest.dependencies)
      (hsource : sourceOf W cfg base entry.source = some source')
      (hroot : W.rootOf source' = some root) (hmanifest : W.manifest root = .ok manifest') :
      Reached W cfg source' root manifest'

/-! ### One dependency -/

/-- Nothing has been reported. -/
structure Clean (s : Resolver) : Prop where
  failed : s.failed = []
  diagnostics : s.diagnostics = []

/-- The edge of a dependency, from the package `id`. -/
def DependencyEntry.edge (entry : DependencyEntry) (id dep : Nat) : Edge :=
  ⟨id, entry.key, entry.keyStart, dep⟩

/-- The package that a dependency of the package `id` enters. -/
structure Enters (W : World) (cfg : Config) (id : Nat) (base : Path) (entry : DependencyEntry)
    (p : PackageNode) : Prop where
  source : sourceOf W cfg base entry.source = some p.source
  root : W.rootOf p.source = some p.root
  locked : p.locked = lockedOf W base entry.source p.source
  checksum : W.checksum p.root = .ok p.checksum
  expected : (cfg.expected p.locked).any (· ≠ p.checksum) = false
  manifest : W.manifest p.root = .ok p.manifest
  fresh : staleReason W cfg p.manifest.name p.locked = none
  via : p.via = some (id, entry.key)

/-- A dependency of the package `id` is followed without a report. -/
inductive Follows (W : World) (cfg : Config) (id : Nat) (base : Path) (entry : DependencyEntry)
    (s : Resolver) : Resolver → Prop
  | met {source : SourceKey} {dep : Nat} (hsource : sourceOf W cfg base entry.source = some source)
      (hdep : s.bySource source = some dep) :
      Follows W cfg id base entry s { s with deps := s.deps ++ [entry.edge id dep] }
  | entered {p : PackageNode} (hnew : s.bySource p.source = none)
      (henters : Enters W cfg id base entry p) :
      Follows W cfg id base entry s
        { s.add p with deps := s.deps ++ [entry.edge id s.packages.length] }

section

variable {W : World} {cfg : Config} {s : Resolver}

theorem commitOf_ok {base : Path} {written : GitUrl} {ref : GitRef} {id : Nat}
    {key commit : String} :
    commitOf W cfg base written ref id key = .ok commit ↔
      cfg.commit W base written ref = some commit := by
  rw [commitOf, Config.commit]
  cases pinnedCommit cfg.existing (lockedGitUrl written base W.project) ref with
  | some c => simp
  | none =>
    by_cases hr : cfg.policy = .readOnly ∧ cfg.existing.isSome = true
    · simp [if_pos hr]
    · rw [if_neg hr, if_neg hr]
      cases W.resolveRef (resolveGitUrl written base) ref with
      | ok c | error text => simp [Except.toOption]

/-- What `enter` makes of a source that is not there yet, if it makes a package of it. -/
theorem enter_new {source : SourceKey} {root : Path} {locked : LockedSource}
    {expected : Option String} {id : Nat} {key : String} (hs : Clean s)
    (hnew : s.bySource source = none) :
    (∃ checksum manifest, W.checksum root = .ok checksum ∧
        expected.any (· ≠ checksum) = false ∧ W.manifest root = .ok manifest ∧
        staleReason W cfg manifest.name locked = none ∧
        enter W cfg s source root locked expected id key =
          (s.add ⟨source, root, manifest, locked, checksum, some (id, key)⟩,
            some s.packages.length)) ∨
      ((enter W cfg s source root locked expected id key).2 = none ∧
        (enter W cfg s source root locked expected id key).1.diagnostics ≠ []) := by
  have hr : ∀ d, (s.fail source d).diagnostics ≠ [] := by
    simp [Resolver.fail, Resolver.report]
  rw [enter, hnew]
  rw [if_neg (by simp [hs.failed])]
  grind

variable {id : Nat} {base : Path} {entry : DependencyEntry}

theorem resolveDependency_met {source : SourceKey} {dep : Nat}
    (hs : sourceOf W cfg base entry.source = some source) (hdep : s.bySource source = some dep) :
    resolveDependency W cfg s id base entry = (s, some dep) := by
  rw [resolveDependency]
  cases hen : entry.source with
  | path path =>
    simp only [hen, sourceOf, Option.ite_none_right_eq_some, Option.some.injEq] at hs
    obtain ⟨⟨he, hp⟩, rfl⟩ := hs
    simp only [he, hp, Bool.not_true, Bool.false_eq_true, if_false]
    rw [enter, hdep]
  | git written ref =>
    rw [hen, sourceOf, map_eq_some_iff] at hs
    obtain ⟨commit, hc, rfl⟩ := hs
    simp only [commitOf_ok.mpr hc]
    rw [enterGit, hdep]

theorem resolveDependency_eq_enter {source : SourceKey} {root : Path}
    (hs : sourceOf W cfg base entry.source = some source) (hr : W.rootOf source = some root) :
    resolveDependency W cfg s id base entry =
      enter W cfg s source root (lockedOf W base entry.source source)
        (cfg.expected (lockedOf W base entry.source source)) id entry.key := by
  rw [resolveDependency]
  cases hen : entry.source with
  | path path =>
    simp only [hen, sourceOf, Option.ite_none_right_eq_some, Option.some.injEq] at hs
    obtain ⟨⟨he, hp⟩, rfl⟩ := hs
    obtain rfl : _ = root := Option.some.inj hr
    simp only [he, hp, Bool.not_true, Bool.false_eq_true, if_false]
    rfl
  | git written ref =>
    rw [hen, sourceOf, map_eq_some_iff] at hs
    obtain ⟨commit, hc, rfl⟩ := hs
    rw [World.rootOf, map_eq_some_iff] at hr
    obtain ⟨dir, hft, rfl⟩ := hr
    have hft : W.fetch (resolveGitUrl written base) commit = .ok dir := by
      cases h : W.fetch (resolveGitUrl written base) commit with
      | error e => simp [h, Except.toOption] at hft
      | ok d => simpa [h, Except.toOption] using hft
    simp only [commitOf_ok.mpr hc]
    rw [enterGit, enter]
    cases hdep : s.bySource (.git (resolveGitUrl written base) commit) with
    | some dep => rfl
    | none =>
      simp only [hft]
      by_cases hf : .git (resolveGitUrl written base) commit ∈ s.failed
      · rw [if_pos hf, if_pos hf]
      · rw [if_neg hf, if_neg hf, enter, hdep]
        rw [if_neg hf]
        rfl

theorem resolveDependency_lost (hs : Clean s)
    (h : ∀ source, sourceOf W cfg base entry.source = some source →
      s.bySource source = none ∧ W.rootOf source = none) :
    (resolveDependency W cfg s id base entry).2 = none ∧
      (resolveDependency W cfg s id base entry).1.diagnostics ≠ [] := by
  have hr : ∀ d, (s.report d).diagnostics ≠ [] := by
    simp [Resolver.report]
  rw [resolveDependency]
  cases hen : entry.source with
  | path path =>
    rw [hen, sourceOf] at h
    by_cases he : W.pathExists (normalizePath (base.join path)) = true
    · by_cases hp : W.isPackage (normalizePath (base.join path)) = true
      · obtain ⟨-, hrt⟩ := h _ (if_pos ⟨he, hp⟩)
        cases hrt
      grind
    grind
  | git written ref =>
    rw [hen, sourceOf] at h
    simp only
    cases hc : commitOf W cfg base written ref id entry.key with
    | error d => exact ⟨rfl, hr _⟩
    | ok commit =>
      obtain ⟨hnew, hrt⟩ := h _ (map_eq_some_iff.mpr ⟨commit, commitOf_ok.mp hc, rfl⟩)
      simp only
      rw [enterGit, hnew]
      rw [if_neg (by simp [hs.failed])]
      cases hf : W.fetch (resolveGitUrl written base) commit with
      | error e => cases e <;> exact ⟨rfl, hr _⟩
      | ok dir => simp [World.rootOf, hf, Except.toOption] at hrt

theorem resolveDependency_entered {p : PackageNode} (hs : Clean s)
    (hnew : s.bySource p.source = none) (h : Enters W cfg id base entry p) :
    resolveDependency W cfg s id base entry = (s.add p, some s.packages.length) := by
  obtain ⟨source, root, manifest, locked, checksum, via⟩ := p
  obtain rfl : locked = lockedOf W base entry.source source := h.locked
  obtain rfl : via = some (id, entry.key) := h.via
  rw [resolveDependency_eq_enter h.source h.root]
  rcases @enter_new W cfg s source root (lockedOf W base entry.source source)
    (cfg.expected (lockedOf W base entry.source source)) id entry.key hs hnew with he | hl
  · obtain ⟨checksum', manifest', hc, -, hm, -, heq⟩ := he
    obtain rfl : checksum' = checksum := Except.ok.inj (hc.symm.trans h.checksum)
    obtain rfl : manifest' = manifest := Except.ok.inj (hm.symm.trans h.manifest)
    exact heq
  · rw [enter, hnew] at hl
    rw [if_neg (by simp [hs.failed]), h.checksum] at hl
    simp only at hl
    rw [if_neg (by simpa using h.expected), h.manifest] at hl
    simp only [h.fresh] at hl
    exact absurd hl.1 (by simp)

theorem follow_cases (hs : Clean s) :
    Follows W cfg id base entry s (follow W cfg id base s entry) ∨
      (follow W cfg id base s entry).diagnostics ≠ [] := by
  by_cases h : ∀ source, sourceOf W cfg base entry.source = some source →
      s.bySource source = none ∧ W.rootOf source = none
  · obtain ⟨hn, hne⟩ := @resolveDependency_lost W cfg s id base entry hs h
    right
    rw [follow]
    grind
  · push Not at h
    obtain ⟨source, hsr, hi⟩ := h
    cases hdep : s.bySource source with
    | some dep =>
      left
      rw [follow, resolveDependency_met hsr hdep]
      exact .met hsr hdep
    | none =>
      obtain ⟨root, hr⟩ := ne_none_iff_exists'.mp (hi hdep)
      rw [follow, resolveDependency_eq_enter hsr hr]
      rcases @enter_new W cfg s source root (lockedOf W base entry.source source)
        (cfg.expected (lockedOf W base entry.source source)) id entry.key hs hdep with
        ⟨checksum, manifest, hc, he, hm, hst, heq⟩ | ⟨hn, hne⟩
      · left
        rw [heq]
        exact .entered hdep ⟨hsr, hr, rfl, hc, he, hm, hst, rfl⟩
      grind

theorem Follows.eq {s' : Resolver} (hs : Clean s) (h : Follows W cfg id base entry s s') :
    follow W cfg id base s entry = s' := by
  cases h with
  | met hsr hdep =>
    rw [follow, resolveDependency_met hsr hdep]
    rfl
  | entered hnew he =>
    rw [follow, resolveDependency_entered hs hnew he]
    rfl

theorem Follows.clean {s' : Resolver} (hs : Clean s) (h : Follows W cfg id base entry s s') :
    Clean s' := by
  cases h with
  | met _ _ | entered _ _ => exact ⟨hs.failed, hs.diagnostics⟩

end

/-! ### Reports stay -/

section

variable {s : Resolver}

variable {W : World} {cfg : Config}

theorem enter_diagnostics (s : Resolver) (source : SourceKey) (root : Path) (locked : LockedSource)
    (expected : Option String) (id : Nat) (key : String) :
    s.diagnostics <+: (enter W cfg s source root locked expected id key).1.diagnostics := by
  have hr : ∀ d, s.diagnostics <+: (s.fail source d).diagnostics := fun d =>
    prefix_append s.diagnostics [d]
  unfold enter
  repeat' split
  all_goals first | exact prefix_rfl | exact hr _

theorem follow_diagnostics (s : Resolver) (id : Nat) (base : Path) (entry : DependencyEntry) :
    s.diagnostics <+: (follow W cfg id base s entry).diagnostics := by
  have hr : ∀ d, s.diagnostics <+: (s.report d).diagnostics := fun d =>
    prefix_append s.diagnostics [d]
  have hrs : s.diagnostics <+: (resolveDependency W cfg s id base entry).1.diagnostics := by
    unfold resolveDependency
    split
    · simp only
      split_ifs
      · exact hr _
      · exact hr _
      · exact enter_diagnostics ..
    · split
      · exact hr _
      · unfold enterGit
        simp only
        repeat' split
        all_goals first
          | exact prefix_rfl
          | exact hr _
          | exact enter_diagnostics ..
  rw [follow]
  grind

theorem foldl_follow_diagnostics (id : Nat) (base : Path) (entries : List DependencyEntry)
    (s : Resolver) : s.diagnostics <+: (entries.foldl (follow W cfg id base) s).diagnostics := by
  induction entries generalizing s with
  | nil => exact prefix_rfl
  | cons entry entries ih => exact (follow_diagnostics s id base entry).trans (ih _)

theorem visit_diagnostics (s : Resolver) (id : Nat) :
    s.diagnostics <+: (visit W cfg s id).diagnostics := by
  rw [visit]
  split
  · exact foldl_follow_diagnostics _ _ _ _
  · exact prefix_rfl

theorem visitAll_nil (h : s.queue = []) (fuel : Nat) : visitAll W cfg fuel s = some s := by
  cases fuel with
  | zero => rw [visitAll, if_pos h]
  | succ fuel => rw [visitAll, h]

theorem visitAll_cons {id : Nat} {queue : List Nat} (h : s.queue = id :: queue) (fuel : Nat) :
    visitAll W cfg (fuel + 1) s =
      visitAll W cfg fuel (visit W cfg { s with queue := queue } id) := by
  rw [visitAll, h]

theorem visitAll_zero {id : Nat} {queue : List Nat} (h : s.queue = id :: queue) :
    visitAll W cfg 0 s = none := by
  rw [visitAll, h]
  rfl

theorem visitAll_diagnostics {fuel : Nat} {s' : Resolver} (h : visitAll W cfg fuel s = some s') :
    s.diagnostics <+: s'.diagnostics := by
  induction fuel generalizing s with
  | zero =>
    cases hqu : s.queue with
    | nil =>
      rw [visitAll_nil hqu] at h
      exact Option.some.inj h ▸ prefix_rfl
    | cons id queue =>
      rw [visitAll_zero hqu] at h
      cases h
  | succ fuel ih =>
    cases hqu : s.queue with
    | nil =>
      rw [visitAll_nil hqu] at h
      exact Option.some.inj h ▸ prefix_rfl
    | cons id queue =>
      rw [visitAll_cons hqu] at h
      exact (@visit_diagnostics W cfg { s with queue := queue } id).trans (ih h)

end

/-! ### The dependencies of a package -/

/-- The dependencies of the package `id` are followed without a report. -/
inductive Walk (W : World) (cfg : Config) (id : Nat) (base : Path) :
    List DependencyEntry → Resolver → Resolver → Prop
  | nil (s : Resolver) : Walk W cfg id base [] s s
  | cons {entry : DependencyEntry} {entries : List DependencyEntry} {s s₁ s₂ : Resolver}
      (h : Follows W cfg id base entry s s₁) (hrest : Walk W cfg id base entries s₁ s₂) :
      Walk W cfg id base (entry :: entries) s s₂

/-- How a package came into the graph. -/
inductive Comes (W : World) (cfg : Config) (packages : List PackageNode) : Nat → PackageNode → Prop
  | project {p : PackageNode} (source : p.source = .path W.project) (root : p.root = W.project)
      (locked : p.locked = .here) (manifest : W.manifest W.project = .ok p.manifest) :
      Comes W cfg packages 0 p
  | dependency {i j : Nat} {p q : PackageNode} {entry : DependencyEntry} (hlt : j < i)
      (hq : packages[j]? = some q) (hentry : entry ∈ q.manifest.dependencies)
      (henters : Enters W cfg j q.root entry p) : Comes W cfg packages i p

/-- The packages of a run: each source is one. -/
structure Known (W : World) (cfg : Config) (packages : List PackageNode) : Prop where
  nodup : (packages.map PackageNode.source).Nodup
  comes : ∀ {i p}, packages[i]? = some p → Comes W cfg packages i p

/-- An edge is that of a dependency, and leads to the package of its source. -/
structure Resolves (W : World) (cfg : Config) (id : Nat) (base : Path) (packages : List PackageNode)
    (entry : DependencyEntry) (e : Edge) : Prop where
  eq : e = entry.edge id e.dep
  dep : ∃ q, packages[e.dep]? = some q ∧ sourceOf W cfg base entry.source = some q.source

section

variable {packages : List PackageNode} {i k : Nat} {p q : PackageNode} {entry : DependencyEntry}
  {s s' : Resolver} {source : SourceKey} {entries : List DependencyEntry}

variable {W : World} {cfg : Config} {id : Nat} {base : Path}

theorem getElem?_of_le {packages' : List PackageNode} (h : packages <+: packages')
    (hp : packages[i]? = some p) : packages'[i]? = some p := by
  obtain ⟨rest, rfl⟩ := h
  grind

theorem Resolves.mono {packages' : List PackageNode} (hle : packages <+: packages') {e : Edge}
    (h : Resolves W cfg id base packages entry e) : Resolves W cfg id base packages' entry e := by
  obtain ⟨q, hq, hs⟩ := h.dep
  exact ⟨h.eq, q, getElem?_of_le hle hq, hs⟩

theorem bySource_eq_some {dep : Nat} (h : s.bySource source = some dep) :
    ∃ q, s.packages[dep]? = some q ∧ q.source = source := by
  rw [Resolver.bySource, findIdx?_eq_some_iff_getElem] at h
  grind

theorem bySource_eq_none (h : s.bySource source = none) :
    source ∉ s.packages.map PackageNode.source := by
  rw [Resolver.bySource, findIdx?_eq_none_iff] at h
  grind

theorem Known.add (hs : Known W cfg s.packages) (hnew : s.bySource p.source = none)
    (hq : s.packages[id]? = some q) (he : entry ∈ q.manifest.dependencies)
    (h : Enters W cfg id q.root entry p) : Known W cfg (s.packages ++ [p]) := by
  constructor
  · rw [map_append, map_singleton, nodup_append]
    refine ⟨hs.nodup, by simp, ?_⟩
    intro a ha b hb hab
    rw [mem_singleton] at hb
    exact bySource_eq_none hnew (hb ▸ hab ▸ ha)
  · intro i r hr
    have hle : s.packages <+: s.packages ++ [p] := prefix_append _ _
    rcases Nat.lt_or_ge i s.packages.length with hi | hi
    · rw [List.getElem?_append_left hi] at hr
      cases hs.comes hr with
      | project source root locked manifest => exact .project source root locked manifest
      | dependency hlt hq he hen =>
        exact .dependency hlt (getElem?_of_le hle hq) he hen
    · rw [getElem?_append_right hi, getElem?_singleton] at hr
      obtain rfl : p = r := (Option.ite_none_right_eq_some.mp hr).2 |> Option.some.inj
      have hid := (List.getElem?_eq_some_iff.mp hq).1
      exact .dependency (by omega) (getElem?_of_le hle hq) he h

theorem foldl_walk (hs : Clean s) (h : (entries.foldl (follow W cfg id base) s).diagnostics = []) :
    Walk W cfg id base entries s (entries.foldl (follow W cfg id base) s) := by
  induction entries generalizing s with
  | nil => exact .nil s
  | cons entry entries ih =>
    rw [foldl_cons] at h ⊢
    rcases @follow_cases W cfg s id base entry hs with hf | hne
    · exact .cons hf (ih (hf.clean hs) h)
    · -- what is reported is there at the end
      have hp := @foldl_follow_diagnostics W cfg id base entries (follow W cfg id base s entry)
      rw [h, prefix_nil] at hp
      exact absurd hp hne

theorem Walk.foldl_eq (hs : Clean s) (h : Walk W cfg id base entries s s') :
    entries.foldl (follow W cfg id base) s = s' := by
  induction h with
  | nil s => rfl
  | cons hf hr ih => rw [foldl_cons, hf.eq hs, ih (hf.clean hs)]

theorem Walk.clean (hs : Clean s) (h : Walk W cfg id base entries s s') : Clean s' := by
  induction h with
  | nil s => exact hs
  | cons hf hr ih => exact ih (hf.clean hs)

/-- What the dependencies of a package add: packages, which are in the queue, and an edge each. -/
structure Walked (W : World) (cfg : Config) (id : Nat) (base : Path)
    (entries : List DependencyEntry) (s s' : Resolver) : Prop where
  known : Known W cfg s'.packages
  packages : s.packages <+: s'.packages
  queue : s'.queue = s.queue ++
    List.range' s.packages.length (s'.packages.length - s.packages.length)
  deps : ∃ edges, s'.deps = s.deps ++ edges ∧
    List.Forall₂ (Resolves W cfg id base s'.packages) entries edges

theorem Walk.walked (h : Walk W cfg id q.root entries s s') (hs : Known W cfg s.packages)
    (hq : s.packages[id]? = some q) (hmm : ∀ entry ∈ entries, entry ∈ q.manifest.dependencies) :
    Walked W cfg id q.root entries s s' := by
  generalize hb : q.root = base at h
  induction h with
  | nil s => exact ⟨hs, prefix_rfl, by simp, [], by simp, .nil⟩
  | @cons entry entries s s₁ s₂ hf hre ih =>
    obtain ⟨het, hmm⟩ := forall_mem_cons.mp hmm
    cases hf with
    | @met source dep hsr hdep =>
      obtain ⟨hk, hp, hqu, edges, hd, he⟩ := ih hs hq hmm
      obtain ⟨r, hr, hrs⟩ := bySource_eq_some hdep
      refine ⟨hk, hp, hqu, entry.edge id dep :: edges, ?_,
        .cons ⟨rfl, r, getElem?_of_le hp hr, ?_⟩ he⟩
      · rw [hd, append_assoc, singleton_append]
      · rw [hsr, hrs]
    | @entered p hnew hen =>
      subst hb
      have hle : s.packages <+: s.packages ++ [p] := prefix_append _ _
      obtain ⟨hk, hp, hqu, edges, hd, he⟩ := ih (hs.add hnew hq het hen) (getElem?_of_le hle hq) hmm
      have hl := hp.length_le
      refine ⟨hk, hle.trans hp, ?_, entry.edge id s.packages.length :: edges, ?_,
        .cons ⟨rfl, p, getElem?_of_le hp ?_, hen.source⟩ he⟩
      · simp only [Resolver.add, length_append, length_singleton] at hqu hl
        obtain ⟨m, hm⟩ := Nat.exists_eq_add_of_le hl
        rw [hqu, hm, append_assoc]
        have hsb : s.packages.length + 1 + m - s.packages.length = m + 1 := by omega
        rw [hsb, List.range'_succ, Nat.add_sub_cancel_left]
        rfl
      · rw [hd, append_assoc, singleton_append]
      · exact getElem?_concat_length

/-! ### A whole run -/

/-- The state of a run that reports nothing when the packages before `k` have been visited. -/
structure Stage (W : World) (cfg : Config) (k : Nat) (s : Resolver) : Prop where
  clean : Clean s
  known : Known W cfg s.packages
  le : k ≤ s.packages.length
  queue : s.queue = List.range' k (s.packages.length - k)
  edges : ∀ e ∈ s.deps, e.package < k
  linked : ∀ {i p}, i < k → s.packages[i]? = some p →
    List.Forall₂ (Resolves W cfg i p.root s.packages) p.manifest.dependencies
      (s.deps.filter (·.package = i))

theorem Stage.next (h : Stage W cfg k s) {queue : List Nat} (hqu : s.queue = id :: queue) :
    id = k ∧ queue = List.range' (k + 1) (s.packages.length - (k + 1)) ∧
      ∃ p, s.packages[k]? = some p := by
  rw [h.queue] at hqu
  cases hs : s.packages.length - k with
  | zero =>
    rw [hs] at hqu
    cases hqu
  | succ n =>
    rw [hs, List.range'_succ, List.cons.injEq] at hqu
    refine ⟨hqu.1.symm, ?_, s.packages[k], getElem?_eq_getElem (by omega)⟩
    rw [← hqu.2]
    congr 1
    omega

theorem Stage.done (h : Stage W cfg k s) (hqu : s.queue = []) :
    Stage W cfg s.packages.length s := by
  have hk : k = s.packages.length := by
    have hl := congrArg List.length (h.queue.symm.trans hqu)
    rw [length_range', length_nil] at hl
    have hle := h.le
    omega
  exact hk ▸ h

theorem package_of_resolves {edges : List Edge}
    (h : List.Forall₂ (Resolves W cfg id base packages) entries edges) :
    ∀ e ∈ edges, e.package = id := by
  induction h with
  | nil => nofun
  | cons hr _ ih => exact forall_mem_cons.mpr ⟨hr.eq ▸ rfl, ih⟩

theorem Stage.visit (h : Stage W cfg k s) {queue : List Nat} (hqu : s.queue = id :: queue)
    (hc : (Package.visit W cfg { s with queue := queue } id).diagnostics = []) :
    Stage W cfg (k + 1) (Package.visit W cfg { s with queue := queue } id) ∧
      ∃ p, s.packages[id]? = some p ∧
        Walk W cfg id p.root p.manifest.dependencies { s with queue := queue }
          (Package.visit W cfg { s with queue := queue } id) ∧
        s.packages <+: (Package.visit W cfg { s with queue := queue } id).packages := by
  obtain ⟨rfl, hrs, p, hp⟩ := h.next hqu
  have hs : Clean { s with queue := queue } := ⟨h.clean.failed, h.clean.diagnostics⟩
  have hv : Package.visit W cfg { s with queue := queue } id =
      p.manifest.dependencies.foldl (follow W cfg id p.root) { s with queue := queue } := by
    rw [Package.visit]
    simp only [hp]
  rw [hv] at hc ⊢
  have hwl := foldl_walk hs hc
  have hw := hwl.walked h.known hp fun _ hm => hm
  generalize p.manifest.dependencies.foldl (follow W cfg id p.root) { s with queue := queue } = s'
    at hwl hw
  obtain ⟨edges, hd, hed⟩ := hw.deps
  have hid := (List.getElem?_eq_some_iff.mp hp).1
  have hle : s.packages.length ≤ s'.packages.length := hw.packages.length_le
  have heg := package_of_resolves hed
  refine ⟨⟨hwl.clean hs, hw.known, ?_, ?_, ?_, ?_⟩, p, hp, hwl, hw.packages⟩
  · exact Nat.lt_of_lt_of_le hid hle
  · rw [hw.queue, hrs]
    have hsp := @List.range'_append_1 (id + 1) (s.packages.length - (id + 1))
      (s'.packages.length - s.packages.length)
    grind
  · intro e he
    rw [hd, mem_append] at he
    rcases he with he | he
    · exact Nat.lt_succ_of_lt (h.edges e he)
    · exact heg e he ▸ Nat.lt_succ_self id
  · intro i q hi hq
    rw [hd, filter_append]
    rcases Nat.lt_succ_iff_lt_or_eq.mp hi with hlt | rfl
    · -- a package visited before
      have hq : s.packages[i]? = some q := by
        rw [getElem?_eq_getElem (Nat.lt_trans hlt hid)]
        rw [getElem?_of_le hw.packages (getElem?_eq_getElem (Nat.lt_trans hlt hid))] at hq
        exact hq
      have hn : edges.filter (·.package = i) = [] := by
        rw [filter_eq_nil_iff]
        grind
      rw [hn, append_nil]
      exact (h.linked hlt hq).imp fun _ _ hr => hr.mono hw.packages
    · have ha : edges.filter (·.package = i) = edges := by
        rw [filter_eq_self]
        intro e he
        simp [heg e he]
      have hn : s.deps.filter (·.package = i) = [] := by
        rw [filter_eq_nil_iff]
        intro e he
        have hlt := h.edges e he
        simp only [decide_eq_true_eq]
        omega
      obtain rfl : q = p := by
        rw [getElem?_of_le hw.packages hp] at hq
        exact (Option.some.inj hq).symm
      rw [ha, hn, nil_append]
      exact hed

/-- The packages and the edges at the end of a run that reports nothing. -/
theorem visitAll_spec {fuel : Nat} {f : Resolver} (h : Stage W cfg k s)
    (hr : visitAll W cfg fuel s = some f) (hc : f.diagnostics = []) :
    Stage W cfg f.packages.length f ∧ s.packages <+: f.packages := by
  induction fuel generalizing k s with
  | zero =>
    cases hqu : s.queue with
    | nil =>
      obtain rfl : s = f := Option.some.inj ((visitAll_nil hqu 0).symm.trans hr)
      exact ⟨h.done hqu, prefix_rfl⟩
    | cons id queue =>
      rw [visitAll_zero hqu] at hr
      cases hr
  | succ fuel ih =>
    cases hqu : s.queue with
    | nil =>
      obtain rfl : s = f := Option.some.inj ((visitAll_nil hqu _).symm.trans hr)
      exact ⟨h.done hqu, prefix_rfl⟩
    | cons id queue =>
      rw [visitAll_cons hqu] at hr
      have hp := visitAll_diagnostics hr
      rw [hc, prefix_nil] at hp
      obtain ⟨hs, -, -, -, hle⟩ := h.visit hqu hp
      obtain ⟨he, hrs⟩ := ih hs hr
      exact ⟨he, hle.trans hrs⟩

theorem Walk.congr {cfg' : Config} (hs : Known W cfg s.packages) (hq : s.packages[id]? = some q)
    (hm : ∀ entry ∈ entries, entry ∈ q.manifest.dependencies)
    (hst : ∀ {entry t t'}, entry ∈ q.manifest.dependencies → t'.packages <+: s'.packages →
      Follows W cfg id q.root entry t t' → Follows W cfg' id q.root entry t t')
    (h : Walk W cfg id q.root entries s s') : Walk W cfg' id q.root entries s s' := by
  generalize hb : q.root = base at h hst
  induction h with
  | nil s => exact .nil s
  | @cons entry entries s s₁ s₂ hf hr ih =>
    obtain ⟨he, hm⟩ := forall_mem_cons.mp hm
    subst hb
    have ho := (Walk.cons hf (.nil s₁)).walked hs hq (by simpa using he)
    have hq₁ := getElem?_of_le ho.packages hq
    exact .cons (hst he (hr.walked ho.known hq₁ hm).packages hf) (ih ho.known hq₁ hm hst)

theorem visitAll_congr {cfg' : Config} {fuel : Nat} {f : Resolver} (h : Stage W cfg k s)
    (hr : visitAll W cfg fuel s = some f) (hc : f.diagnostics = [])
    (hsp : ∀ {id q entry t t'}, f.packages[id]? = some q → entry ∈ q.manifest.dependencies →
      t'.packages <+: f.packages → Follows W cfg id q.root entry t t' →
      Follows W cfg' id q.root entry t t') : visitAll W cfg' fuel s = some f := by
  induction fuel generalizing k s with
  | zero =>
    cases hqu : s.queue with
    | nil =>
      exact hr
    | cons id queue =>
      rw [visitAll_zero hqu] at hr
      cases hr
  | succ fuel ih =>
    cases hqu : s.queue with
    | nil =>
      rw [visitAll_nil hqu] at hr ⊢
      exact hr
    | cons id queue =>
      rw [visitAll_cons hqu] at hr ⊢
      have hpr := visitAll_diagnostics hr
      rw [hc, prefix_nil] at hpr
      obtain ⟨hst, p, hp, hw, hle⟩ := h.visit hqu hpr
      obtain ⟨-, hrs⟩ := visitAll_spec hst hr hc
      have hs : Clean { s with queue := queue } := ⟨h.clean.failed, h.clean.diagnostics⟩
      have hw' : Walk W cfg' id p.root p.manifest.dependencies { s with queue := queue } _ :=
        hw.congr h.known hp (fun _ hm => hm) fun he hle' =>
          hsp (getElem?_of_le (hle.trans hrs) hp) he (hle'.trans hrs)
      have hv : Package.visit W cfg' { s with queue := queue } id =
          Package.visit W cfg { s with queue := queue } id := by
        rw [Package.visit]
        simp only [hp]
        exact hw'.foldl_eq hs
      rw [hv]
      exact ih hst hr

/-! ### The packages that are reached -/

theorem Comes.rootOf (h : Comes W cfg packages i p) : W.rootOf p.source = some p.root := by
  cases h with
  | project source root _ _ => rw [source, root]; rfl
  | dependency _ _ _ he => exact he.root

theorem Comes.manifest (h : Comes W cfg packages i p) : W.manifest p.root = .ok p.manifest := by
  cases h with
  | project _ root _ manifest => rw [root]; exact manifest
  | dependency _ _ _ he => exact he.manifest

theorem Known.reached (h : Known W cfg packages) (hp : packages[i]? = some p) :
    Reached W cfg p.source p.root p.manifest := by
  induction i using Nat.strongRecOn generalizing p with
  | ind i ih =>
    cases h.comes hp with
    | project source root _ manifest =>
      rw [source, root]
      exact .project manifest
    | dependency hlt hq hen he =>
      exact .dependency (ih _ hlt hq) hen he.source he.root he.manifest

theorem resolves_of_mem {edges : List Edge}
    (h : List.Forall₂ (Resolves W cfg id base packages) entries edges) (he : entry ∈ entries) :
    ∃ e ∈ edges, Resolves W cfg id base packages entry e := by
  induction h with
  | nil => cases he
  | @cons entry' e _ _ hr _ ih => grind

theorem Known.eq_of_rootOf (h : Known W cfg packages) (hp : packages[i]? = some p) {root : Path}
    {manifest : Manifest} (hr : W.rootOf p.source = some root)
    (hm : W.manifest root = .ok manifest) : p.root = root ∧ p.manifest = manifest := by
  have hc := h.comes hp
  obtain rfl : p.root = root := Option.some.inj (hc.rootOf.symm.trans hr)
  exact ⟨rfl, Except.ok.inj (hc.manifest.symm.trans hm)⟩

theorem Stage.package_of_reached (h : Stage W cfg s.packages.length s) {project : PackageNode}
    (hpr : s.packages[0]? = some project) (hs : project.source = .path W.project) {root : Path}
    {manifest : Manifest} (hr : Reached W cfg source root manifest) :
    ∃ (i : Nat) (p : PackageNode), s.packages[i]? = some p ∧ p.source = source ∧ p.root = root ∧
      p.manifest = manifest := by
  induction hr with
  | project hm =>
    have hrt : W.rootOf project.source = some W.project := by rw [hs]; rfl
    exact ⟨0, project, hpr, hs, h.known.eq_of_rootOf hpr hrt hm⟩
  | dependency _ he hs' hrt hm ih =>
    obtain ⟨i, p, hp, -, rfl, rfl⟩ := ih
    obtain ⟨e, -, hrs⟩ := resolves_of_mem (h.linked (List.getElem?_eq_some_iff.mp hp).1 hp) he
    obtain ⟨q, hq, hqs⟩ := hrs.dep
    obtain rfl := Option.some.inj (hqs.symm.trans hs')
    exact ⟨_, q, hq, rfl, h.known.eq_of_rootOf hq hrt hm⟩

theorem initial_stage {manifest : Manifest} (h : W.manifest W.project = .ok manifest) :
    Stage W cfg 0 (initial W manifest) := by
  refine ⟨⟨rfl, rfl⟩, ⟨?_, ?_⟩, Nat.zero_le _, rfl, nofun, fun hi => absurd hi (Nat.not_lt_zero _)⟩
  · exact pairwise_singleton _ _
  · intro i p hp
    cases i with
    | zero =>
      obtain rfl := Option.some.inj hp
      exact .project rfl rfl rfl h
    | succ i => cases hp

end

end Silt.Package
