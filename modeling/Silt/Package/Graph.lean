import Mathlib.Data.List.Sort
import Mathlib.Data.String.Basic
import Silt.Package.Path

/-!
# The package graph and its lock

`resolvePackages` makes the graph of the packages that a project depends on from their manifests,
breadth first, and the lock file that pins it.  The lock supplies the commit of a git dependency
whose URL and ref it has, and the checksum of a checkout.

What is outside the resolver is a `World`: the files, and git.  A ref is resolved and a commit is
fetched by functions of the URL and the ref.  The dependencies of a manifest are in the order of a
map by symbols, which are numbered as they are met; that order is fixed with the world, so two runs
go through them alike.  Places of source text are left out, but for where the keys of a manifest
start; the dependencies of all packages are in one list.

## Main definitions

* `World` : the project's directory, the files, and git.
* `Lockfile`, `pinnedCommit`, `lockedChecksum` : what a lock says of a git dependency.
* `resolveDependency`, `enter` : the package that a dependency resolves to.
* `resolvePackages` : the graph, and the lock file that is left.
-/

namespace Silt.Package

/-! ### Manifests -/

inductive GitRef
  | branch (name : String)
  | tag (name : String)
  | rev (text : String)
deriving DecidableEq

/-- A git URL as a manifest writes it. -/
inductive GitUrl
  /-- `./x`, `../x` : a path from the manifest's directory. -/
  | relative (parts : List Part)
  | other (text : String)

inductive Dependency
  | path (path : Path)
  | git (url : GitUrl) (ref : GitRef)

/-- A key of `[dependencies]`, where it starts, and what it is. -/
structure DependencyEntry where
  key : String
  keyStart : Nat
  source : Dependency

structure Manifest where
  name : String
  version : String
  /-- In the order of the map that the manifest is loaded into: by the symbols of the keys, not as
  the manifest writes them. -/
  dependencies : List DependencyEntry

/-! ### Lock files -/

/-- A git URL as the lock writes it. -/
inductive LockUrl
  /-- A path from the project's directory. -/
  | relative (parts : List Part)
  | other (text : String)
deriving DecidableEq

inductive LockedSource
  /-- The project itself. -/
  | here
  | path (path : Path)
  | git (url : LockUrl) (ref : GitRef) (resolvedSha : String)
deriving DecidableEq

structure LockedPackage where
  name : String
  version : String
  source : LockedSource
  checksum : String
deriving DecidableEq

structure Lockfile where
  packages : List LockedPackage
deriving DecidableEq

def isHexdigit (c : Char) : Bool :=
  c.isDigit || ('a' ≤ c && c ≤ 'f') || ('A' ≤ c && c ≤ 'F')

/-- A commit id, or what it can start with. -/
def isValidShaShape (s : String) : Bool :=
  7 ≤ s.length && s.length ≤ 64 && s.toList.all isHexdigit

def isFullCommitId (s : String) : Bool :=
  (s.length = 40 || s.length = 64) && s.toList.all isHexdigit

/-- Whether the lock's ref pins the wanted one: the same branch or tag, or a commit that starts with
the wanted rev. -/
def sameRef (wanted locked : GitRef) : Bool :=
  match wanted, locked with
  | .rev rev, .rev commit => isValidShaShape rev && rev.toLower.toList.isPrefixOf commit.toList
  | .branch a, .branch b => a = b
  | .tag a, .tag b => a = b
  | _, _ => false

/-- The packages in the order of their names. -/
def sortByName (packages : List LockedPackage) : List LockedPackage :=
  packages.insertionSort fun a b => a.name ≤ b.name

/-- Whether two sources are one: a path by the directory it names. -/
def LockedSource.samePlace (a b : LockedSource) (base : Path) : Bool :=
  match a, b with
  | .path a, .path b => normalizePath (base.join a) = normalizePath (base.join b)
  | a, b => a = b

/-- Whether two locks have the same packages with the same versions and sources. -/
def Lockfile.samePins (a b : Lockfile) : Bool :=
  let key (lock : Lockfile) := (sortByName lock.packages).map fun p => (p.name, p.version, p.source)
  key a = key b

/-- As `samePins`, but for how a path is written. -/
def Lockfile.samePlaces (a b : Lockfile) (base : Path) : Bool :=
  let mine := sortByName a.packages
  let theirs := sortByName b.packages
  mine.length = theirs.length && (mine.zip theirs).all fun (a, b) =>
    a.name = b.name && a.version = b.version && a.source.samePlace b.source base

/-- A lock is refused if the commit of an entry is not a full id. -/
def Lockfile.readable (lock : Lockfile) : Bool :=
  lock.packages.all fun p =>
    match p.source with
    | .git _ _ sha => isFullCommitId sha
    | _ => true

/-- What is in the place of the lock file: nothing, a text that is no lock, or a lock. -/
abbrev Disk : Type :=
  Option (Except String Lockfile)

/-- The commit that the lock pins a URL at a ref to. -/
def pinnedCommit (existing : Option Lockfile) (url : LockUrl) (ref : GitRef) : Option String :=
  existing.bind fun lock => lock.packages.findSome? fun p =>
    match p.source with
    | .git lockedUrl lockedRef sha =>
      if lockedUrl = url ∧ sameRef ref lockedRef = true then some sha else none
    | _ => none

/-- The checksum that the lock pins the checkout of a URL at a commit to. -/
def lockedChecksum (existing : Option Lockfile) (url : LockUrl) (commit : String) : Option String :=
  existing.bind fun lock => lock.packages.findSome? fun p =>
    match p.source with
    | .git lockedUrl _ sha => if lockedUrl = url ∧ sha = commit then some p.checksum else none
    | _ => none

/-! ### The files, and git -/

inductive ChecksumError
  | io
  | symlink (path : String)

inductive FetchError
  | symlink (path : String)
  | other (text : String)

/-- What the resolver finds outside: the project's directory, files, and git. -/
structure World where
  project : Path
  /-- The project's directory is canonical. -/
  project_named : Named project.parts
  /-- The `silt.toml` in a directory. -/
  manifest : Path → Except String Manifest
  pathExists : Path → Bool
  /-- Whether a `silt.toml` is in the directory. -/
  isPackage : Path → Bool
  canonical : Path → Path
  /-- The checksum of the sources in a directory. -/
  checksum : Path → Except ChecksumError String
  /-- Whether `src/<key>.silt` is in the directory. -/
  isModule : Path → String → Bool
  resolveRef : String → GitRef → Except String String
  /-- A rev resolves to the commit whose id it starts with. -/
  resolveRef_rev : ∀ {url rev commit}, resolveRef url (.rev rev) = .ok commit →
    sameRef (.rev rev) (.rev commit) = true
  fetch : String → String → Except FetchError Path
  /-- Only a full commit id is fetched. -/
  fetch_full : ∀ {url commit root}, fetch url commit = .ok root → isFullCommitId commit = true
  lockWritable : Bool

inductive LockPolicy
  | update
  | readOnly
  | refresh
deriving DecidableEq

/-- How a lock is used, and what it says. -/
structure Config where
  policy : LockPolicy
  existing : Option Lockfile

/-! ### The state of the resolver -/

/-- What identifies a package. -/
inductive SourceKey
  | path (root : Path)
  | git (url commit : String)
deriving DecidableEq

inductive StaleReason
  | noPin
  | anotherSource

/-- A problem, with the package and the key of the dependency it is about. -/
inductive Diagnostic
  | manifestInvalid (text : String)
  | lockfileInvalid (text : String)
  | dependencyNotFound (package : Nat) (key : String) (dir : Path)
  | dependencyNotPackage (package : Nat) (key : String)
  | lockfileStale (package : Nat) (key : String) (reason : StaleReason)
  | gitDependency (package : Nat) (key url : String) (ref : GitRef) (text : String)
  | symlinkInDependency (package : Nat) (key path : String)
  | packageIo (package : Nat) (key : String)
  | lockfileChecksum (package : Nat) (key expected actual : String) (root : Path)
  | duplicatePackage (name : String) (packages : List Nat)
  | dependencyKeyCollision (package : Nat) (key : String)
  | dependencyTwice (package : Nat) (key : String) (first : Option String)
  | lockNotWritten

structure PackageNode where
  source : SourceKey
  root : Path
  manifest : Manifest
  locked : LockedSource
  checksum : String
  /-- The dependency that first reached the package. -/
  via : Option (Nat × String)

/-- A dependency of a package, and the package it resolves to. -/
structure Edge where
  package : Nat
  key : String
  keyStart : Nat
  dep : Nat

structure Resolver where
  packages : List PackageNode
  deps : List Edge
  failed : List SourceKey
  diagnostics : List Diagnostic
  queue : List Nat

namespace Resolver

/-- The package of a source. -/
def bySource (s : Resolver) (source : SourceKey) : Option Nat :=
  s.packages.findIdx? fun p => p.source = source

def report (s : Resolver) (d : Diagnostic) : Resolver :=
  { s with diagnostics := s.diagnostics ++ [d] }

/-- A source that failed is reported once. -/
def fail (s : Resolver) (source : SourceKey) (d : Diagnostic) : Resolver :=
  { s.report d with failed := source :: s.failed }

def add (s : Resolver) (p : PackageNode) : Resolver :=
  { s with packages := s.packages ++ [p], queue := s.queue ++ [s.packages.length] }

end Resolver

/-! ### Dependencies -/

def Path.display (path : Path) : String :=
  (if path.absolute then "/" else "") ++ "/".intercalate (path.parts.map Part.text)

/-- Where a relative URL leads from the manifest's directory, as text. -/
def urlPath (parts : List Part) (base : Path) : Path :=
  ⟨base.absolute, (normalizePath (base.join ⟨false, parts⟩)).parts.map Part.lossy⟩

/-- A git URL as written in the manifest in the directory `base`. -/
def resolveGitUrl (url : GitUrl) (base : Path) : String :=
  match url with
  | .relative parts => (urlPath parts base).display
  | .other text => text

/-- The URL that the lock writes for it: a relative one is relative to the project's directory. -/
def lockedGitUrl (url : GitUrl) (base project : Path) : LockUrl :=
  match url with
  | .relative parts =>
    match relativePath project (urlPath parts base) with
    | some path => .relative path.parts
    | none => .other (urlPath parts base).display
  | .other text => .other text

/-- A rev is pinned as the full commit it resolved to. -/
def lockedRef (ref : GitRef) (commit : String) : GitRef :=
  match ref with
  | .rev _ => .rev commit
  | ref => ref

/-- Why the lock is stale for a package, if it may not be written. -/
def staleReason (W : World) (cfg : Config) (name : String) (locked : LockedSource) :
    Option StaleReason :=
  match cfg.policy, cfg.existing with
  | .readOnly, some lock =>
    let entries := lock.packages.filter fun p => p.name = name
    if entries.any fun p => p.source.samePlace locked W.project then none
    else some (if entries.isEmpty then .noPin else .anotherSource)
  | _, _ => none

/-- The package at `root`, entered into the graph the first time its source is met. -/
def enter (W : World) (cfg : Config) (s : Resolver) (source : SourceKey) (root : Path)
    (locked : LockedSource) (expected : Option String) (package : Nat) (key : String) :
    Resolver × Option Nat :=
  match s.bySource source with
  | some id => (s, some id)
  | none =>
    if source ∈ s.failed then (s, none)
    else
      match W.checksum root with
      | .error (.symlink path) => (s.fail source (.symlinkInDependency package key path), none)
      | .error .io => (s.fail source (.packageIo package key), none)
      | .ok checksum =>
        if expected.any (· ≠ checksum) then
          (s.fail source (.lockfileChecksum package key (expected.getD "") checksum root), none)
        else
          match W.manifest root with
          | .error text => (s.fail source (.manifestInvalid text), none)
          | .ok manifest =>
            match staleReason W cfg manifest.name locked with
            | some reason => (s.fail source (.lockfileStale package key reason), none)
            | none =>
              (s.add ⟨source, root, manifest, locked, checksum, some (package, key)⟩,
                some s.packages.length)

/-- The commit of a git dependency: what the lock pins it to, or what its ref resolves to. -/
def commitOf (W : World) (cfg : Config) (base : Path) (written : GitUrl) (ref : GitRef)
    (package : Nat) (key : String) : Except Diagnostic String :=
  match pinnedCommit cfg.existing (lockedGitUrl written base W.project) ref with
  | some commit => .ok commit
  | none =>
    if cfg.policy = .readOnly ∧ cfg.existing.isSome = true then
      .error (.lockfileStale package key .noPin)
    else
      match W.resolveRef (resolveGitUrl written base) ref with
      | .ok commit => .ok commit
      | .error text => .error (.gitDependency package key (resolveGitUrl written base) ref text)

/-- The package of a git dependency at a commit. -/
def enterGit (W : World) (cfg : Config) (s : Resolver) (base : Path) (written : GitUrl)
    (ref : GitRef) (commit : String) (package : Nat) (key : String) : Resolver × Option Nat :=
  let url := resolveGitUrl written base
  let lockUrl := lockedGitUrl written base W.project
  match s.bySource (.git url commit) with
  | some id => (s, some id)
  | none =>
    if .git url commit ∈ s.failed then (s, none)
    else
      let expected :=
        if cfg.policy = .refresh then none else lockedChecksum cfg.existing lockUrl commit
      match W.fetch url commit with
      | .error (.symlink path) => (s.report (.symlinkInDependency package key path), none)
      | .error (.other text) => (s.report (.gitDependency package key url ref text), none)
      | .ok dir =>
        enter W cfg s (.git url commit) (W.canonical dir)
          (.git lockUrl (lockedRef ref commit) commit)
          expected package key

/-- The package that a dependency of the package in the directory `base` resolves to. -/
def resolveDependency (W : World) (cfg : Config) (s : Resolver) (package : Nat) (base : Path)
    (entry : DependencyEntry) : Resolver × Option Nat :=
  match entry.source with
  | .path path =>
    let dir := normalizePath (base.join path)
    if !W.pathExists dir then (s.report (.dependencyNotFound package entry.key dir), none)
    else if !W.isPackage dir then (s.report (.dependencyNotPackage package entry.key), none)
    else
      let root := W.canonical dir
      enter W cfg s (.path root) root (.path ((relativePath W.project root).getD root)) none package
        entry.key
  | .git written ref =>
    match commitOf W cfg base written ref package entry.key with
    | .error d => (s.report d, none)
    | .ok commit => enterGit W cfg s base written ref commit package entry.key

/-! ### The whole graph -/

/-- One dependency of a package. -/
def follow (W : World) (cfg : Config) (package : Nat) (base : Path) (s : Resolver)
    (entry : DependencyEntry) : Resolver :=
  match resolveDependency W cfg s package base entry with
  | (s, some dep) => { s with deps := s.deps ++ [⟨package, entry.key, entry.keyStart, dep⟩] }
  | (s, none) => s

/-- All dependencies of a package. -/
def visit (W : World) (cfg : Config) (s : Resolver) (id : Nat) : Resolver :=
  match s.packages[id]? with
  | some p => p.manifest.dependencies.foldl (follow W cfg id p.root) s
  | none => s

/-- The packages of the queue, and those that they bring into it. -/
def visitAll (W : World) (cfg : Config) : Nat → Resolver → Option Resolver
  | 0, s => if s.queue = [] then some s else none
  | fuel + 1, s =>
    match s.queue with
    | [] => some s
    | id :: queue => visitAll W cfg fuel (visit W cfg { s with queue } id)

/-- The packages of a name. -/
def idsOf (packages : List PackageNode) (name : String) : List Nat :=
  (List.range packages.length).filter fun i => (packages[i]?.map (·.manifest.name)) = some name

/-- A problem for each name that two packages have, at the second. -/
def duplicateNames (packages : List PackageNode) : List Diagnostic :=
  (packages.zipIdx).filterMap fun (p, i) =>
    let ids := idsOf packages p.manifest.name
    if ids[1]? = some i then some (.duplicatePackage p.manifest.name ids) else none

/-- A problem for each key that is also a module of its package. -/
def keyCollisions (W : World) (packages : List PackageNode) (deps : List Edge) : List Diagnostic :=
  (packages.zipIdx).flatMap fun (p, i) =>
    (deps.filter (·.package = i)).filterMap fun e =>
      if W.isModule p.root e.key then some (.dependencyKeyCollision i e.key) else none

/-- A problem for a dependency on the package itself, and for each that an earlier key names. -/
def targets (id : Nat) (first : List (Nat × String)) : List Edge → List Diagnostic
  | [] => []
  | e :: es =>
    if e.dep = id then .dependencyTwice id e.key none :: targets id first es
    else
      match first.lookup e.dep with
      | some key => .dependencyTwice id e.key (some key) :: targets id first es
      | none => targets id ((e.dep, e.key) :: first) es

def dependencyTargets (packages : List PackageNode) (deps : List Edge) : List Diagnostic :=
  (List.range packages.length).flatMap fun i =>
    targets i [] ((deps.filter (·.package = i)).insertionSort fun a b => a.keyStart ≤ b.keyStart)

/-- The lock that pins the graph. -/
def lockfile (packages : List PackageNode) : Lockfile :=
  ⟨sortByName (packages.map fun p => ⟨p.manifest.name, p.manifest.version, p.locked, p.checksum⟩)⟩

/-- A source as it is read from a lock file, which has of a rev only the commit. -/
def LockedSource.asRead : LockedSource → LockedSource
  | .git url (.rev _) sha => .git url (.rev sha) sha
  | source => source

/-- The lock file, as it is read: its packages by their names. -/
def load (disk : Disk) : Except Diagnostic (Option Lockfile) :=
  match disk with
  | none => .ok none
  | some (.error text) => .error (.lockfileInvalid text)
  | some (.ok lock) =>
    if lock.readable then
      .ok (some ⟨sortByName (lock.packages.map fun p => { p with source := p.source.asRead })⟩)
    else .error (.lockfileInvalid "invalid rev")

/-- The lock that is used: `silt update` uses none. -/
def existingLock (policy : LockPolicy) (disk : Disk) : Except Diagnostic (Option Lockfile) :=
  match policy with
  | .refresh => .ok none
  | _ => load disk

inductive LockChange
  | unchanged
  | created
  | updated
  | rewritten
deriving DecidableEq

structure PackageGraph where
  packages : List PackageNode
  deps : List Edge
  lock : LockChange

/-- What is done to the lock file. -/
def writeLock (W : World) (cfg : Config) (fresh : Lockfile) (disk : Disk) :
    Except Diagnostic (LockChange × Disk) :=
  if cfg.policy = .readOnly ∨
      (cfg.policy = .update ∧ cfg.existing.any (·.samePins fresh) = true) then
    .ok (.unchanged, disk)
  else if !W.lockWritable then .error .lockNotWritten
  else
    let change :=
      if cfg.existing.isNone && disk.isNone then .created
      else if cfg.existing.any (·.samePlaces fresh W.project) then .rewritten
      else .updated
    .ok (change, some (.ok fresh))

/-- The project, before any of its dependencies. -/
def initial (W : World) (manifest : Manifest) : Resolver :=
  Resolver.add ⟨[], [], [], [], []⟩
    ⟨.path W.project, W.project, manifest, .here, "", none⟩

/-- What is wrong with the whole graph. -/
def problems (W : World) (s : Resolver) : List Diagnostic :=
  s.diagnostics ++ duplicateNames s.packages ++ keyCollisions W s.packages s.deps ++
    dependencyTargets s.packages s.deps

/-- The graph, and the lock file that is left, if the manifests that are reached come to an end. -/
def resolvePackages (W : World) (policy : LockPolicy) (disk : Disk) (fuel : Nat) :
    Option (Except (List Diagnostic) (PackageGraph × Disk)) :=
  match W.manifest W.project, existingLock policy disk with
  | .error text, _ => some (.error [.manifestInvalid text])
  | .ok _, .error d => some (.error [d])
  | .ok manifest, .ok existing =>
    (visitAll W ⟨policy, existing⟩ fuel (initial W manifest)).map fun s =>
      if problems W s ≠ [] then .error (problems W s)
      else
        match writeLock W ⟨policy, existing⟩ (lockfile s.packages) disk with
        | .error d => .error [d]
        | .ok (change, disk) => .ok (⟨s.packages, s.deps, change⟩, disk)

end Silt.Package
