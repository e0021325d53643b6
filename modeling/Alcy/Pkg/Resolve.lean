import Alcy.Lib.Unfold
import Alcy.Path.Canonical
import Alcy.Pkg.Manifest

/-! # Dependency resolution

`src/pkg/resolve.cc` over a file system that is a finite map from directories to their manifest
files. The recursion carries the stack of the directories it is in. It computes the unfolding of the
dependency graph (`resolveInto_spec`), so it succeeds exactly where that does.
-/
namespace Alcy.Pkg

open Alcy.Diag Alcy.Path Alcy.Lib

def kResolveIoError : Nat := 2100
def kResolveCycleError : Nat := 2101

/-! ## Files -/

/-- The directories that hold a manifest file that can be opened, with that file. -/
abbrev FileSystem := List (Path × ManifestFile)

namespace FileSystem

variable (fs : FileSystem)

/-- The manifest file of a directory. -/
def manifestFile (dir : Path) : Option ManifestFile :=
  (fs.find? fun entry => entry.1 = dir).map Prod.snd

/-- The file at a path. -/
def fileAt (path : Path) : Option ManifestFile :=
  (fs.find? fun entry => entry.1.join kManifestFileName = path).map Prod.snd

/-- The manifest of a directory, if its file can be read and parsed. -/
def manifest (dir : Path) : Option PackageManifest :=
  (fs.manifestFile dir).bind fun content =>
    (parseManifest (dir.join kManifestFileName).value content 0).toOption

/-- The directories a package depends on, in the order of its manifest. -/
def dependencies (dir : Path) : Option (List Path) :=
  (fs.manifest dir).map fun manifest => manifest.dependencies.map fun dep => dir.join dep.path

end FileSystem

theorem isName_manifest : IsName kManifestFileName := by
  unfold IsName
  decide

/-- A directory's file is found at its path. -/
theorem fileAt_join (fs : FileSystem) (dir : Path) :
    fs.fileAt (dir.join kManifestFileName) = fs.manifestFile dir := by
  unfold FileSystem.fileAt FileSystem.manifestFile
  congr 2
  funext entry
  exact decide_eq_decide.2 ⟨fun h => (join_inj isName_manifest isName_manifest h).1,
    fun h => h ▸ rfl⟩

/-- `source::SourceManager`: the files that are loaded, by their ids. A file stays as it was read. -/
structure SourceManager (fs : FileSystem) where
  entries : List (Path × ManifestFile)
  loaded : ∀ entry ∈ entries, ∀ dir, entry.1 = Path.join dir kManifestFileName →
    fs.manifestFile dir = some entry.2

namespace SourceManager

variable {fs : FileSystem}

def empty : SourceManager fs := ⟨[], nofun⟩

/-- `load` of a directory's manifest file: the id it already has, or a new one. -/
def load (sources : SourceManager fs) (dir : Path) : Option (FileId × SourceManager fs) :=
  match sources.entries.findIdx? fun entry => entry.1 = dir.join kManifestFileName with
  | some file => some (file, sources)
  | none =>
    match h : fs.fileAt (dir.join kManifestFileName) with
    | none => none
    | some content => some (sources.entries.length,
        ⟨sources.entries ++ [(dir.join kManifestFileName, content)], by
          refine List.forall_mem_append.2 ⟨sources.loaded, ?_⟩
          intro entry he dir' hdir
          obtain rfl := List.mem_singleton.1 he
          rw [← fileAt_join, ← hdir, h]⟩)

/-- `name`: the path of a file. -/
def name (sources : SourceManager fs) (file : FileId) : Option Path :=
  sources.entries[file]?.map Prod.fst

/-- `bytes`, with what the parser makes of them. An unknown file is empty. -/
def content (sources : SourceManager fs) (file : FileId) : ManifestFile :=
  (sources.entries[file]?.map Prod.snd).getD ⟨[], .ok []⟩

end SourceManager

/-! ## Resolution -/

structure ResolvedPackage where
  manifest : PackageManifest
  dir : Path
  manifestFile : FileId
  deriving DecidableEq

/-- What the recursion works on: the loaded files, the diagnostics, and the directories it is in. -/
structure State (fs : FileSystem) where
  sources : SourceManager fs
  bag : DiagBag
  visited : List Path

/-- The state a call leaves, with the packages it resolved unless it failed. -/
structure Run (fs : FileSystem) where
  state : State fs
  result : Option (List ResolvedPackage)

variable {fs : FileSystem}

/-- Emits the diagnostic and fails. -/
def State.fail (st : State fs) (diagnostic : Diagnostic) : Run fs :=
  ⟨{ st with bag := st.bag ++ [diagnostic] }, none⟩

def cycleError (dir : Path) : Diagnostic :=
  ⟨.error, kResolveCycleError,
    "dependency cycle detected at '" ++ String.ofList dir.value ++ "'", none⟩

def ioError (path : Path) : Diagnostic :=
  ⟨.error, kResolveIoError, "cannot read manifest '" ++ String.ofList path.value ++ "'", none⟩

/-- The loop over the dependencies, which ends at the first one that fails. -/
def resolveDeps (resolve : Path → State fs → Option (Run fs)) (dir : Path) :
    List Dependency → State fs → List ResolvedPackage → Option (Run fs)
  | [], st, resolved => some ⟨st, some resolved⟩
  | dep :: deps, st, resolved => do
    let child ← resolve (dir.join dep.path) st
    match child.result with
    | none => some ⟨child.state, none⟩
    | some packages => resolveDeps resolve dir deps child.state (resolved ++ packages)

/-- `resolve_into`. `none` means the fuel ran out, which `resolvePackage_exact` excludes. -/
def resolveInto : Nat → Path → State fs → Option (Run fs)
  | 0, _, _ => none
  | fuel + 1, dir, st =>
    if dir ∈ st.visited then some (st.fail (cycleError dir))
    else
      let st := { st with visited := st.visited ++ [dir] }
      let path := dir.join kManifestFileName
      match st.sources.load dir with
      | none => some (st.fail (ioError path))
      | some (file, sources) =>
        let st := { st with sources := sources }
        match parseManifest path.value (sources.content file) file with
        | .error diagnostic => some (st.fail diagnostic)
        | .ok manifest => do
          let run ← resolveDeps (resolveInto fuel) dir manifest.dependencies st
            [⟨manifest, dir, file⟩]
          match run.result with
          | none => some run
          | some _ => some { run with
              state := { run.state with visited := run.state.visited.dropLast } }

/-- `resolve_package`, with more fuel than there are directories to be in. -/
def resolvePackage (dir : Text) (sources : SourceManager fs) (bag : DiagBag) : Option (Run fs) :=
  let st : State fs := ⟨sources, bag, []⟩
  match fromNative dir with
  | none => some (st.fail ⟨.error, kResolveIoError,
      "invalid package directory '" ++ String.ofList dir ++ "'", none⟩)
  | some canonical => resolveInto (fs.length + 1) canonical st

/-! ## The stack -/

/-- A loaded file keeps its id. -/
theorem SourceManager.name_of_prefix {sources sources' : SourceManager fs}
    (h : sources.entries <+: sources'.entries) {file : FileId} {path : Path}
    (hn : sources.name file = some path) : sources'.name file = some path := by
  obtain ⟨more, h⟩ := h
  obtain ⟨entry, he, rfl⟩ := Option.map_eq_some_iff.1 hn
  rw [SourceManager.name, ← h, List.getElem?_append_left (List.getElem?_eq_some_iff.1 he).1, he]
  rfl

/-- Loading finds the manifest file that the directory holds. -/
theorem SourceManager.load_spec (sources : SourceManager fs) (dir : Path) :
    (sources.load dir = none ∧ fs.manifestFile dir = none) ∨
    ∃ file sources', sources.load dir = some (file, sources') ∧
      fs.manifestFile dir = some (sources'.content file) ∧
      sources'.name file = some (dir.join kManifestFileName) ∧
      sources.entries <+: sources'.entries := by
  unfold SourceManager.load
  split
  · next file hfile =>
    obtain ⟨hlt, hpath, _⟩ := List.findIdx?_eq_some_iff_getElem.1 hfile
    have hpath := of_decide_eq_true hpath
    refine .inr ⟨file, sources, rfl, ?_, ?_, List.prefix_rfl⟩
    · rw [sources.loaded _ (List.getElem_mem hlt) dir hpath, SourceManager.content,
        List.getElem?_eq_getElem hlt]
      rfl
    · rw [SourceManager.name, List.getElem?_eq_getElem hlt, Option.map_some, hpath]
  · split
    · next h => exact .inl ⟨rfl, fileAt_join fs dir ▸ h⟩
    · next content h =>
      refine .inr ⟨_, _, rfl, ?_, ?_, List.prefix_append ..⟩
      · simp [SourceManager.content, ← fileAt_join, h]
      · simp [SourceManager.name]

/-- A package that was resolved: its directory's manifest, and the file it was read from. -/
structure Resolved (sources : SourceManager fs) (package : ResolvedPackage) : Prop where
  manifest : fs.manifest package.dir = some package.manifest
  file : sources.name package.manifestFile = some (package.dir.join kManifestFileName)

/-- **What a call establishes**, when `dirs` is the unfolding of its directory. -/
structure Resolves (st : State fs) (dirs : Option (List Path)) (run : Run fs) : Prop where
  dirs : run.result.map (List.map ResolvedPackage.dir) = dirs
  sources : st.sources.entries <+: run.state.sources.entries
  success : ∀ packages, run.result = some packages → run.state.bag = st.bag ∧
    run.state.visited = st.visited ∧ ∀ package ∈ packages, Resolved run.state.sources package
  failure : run.result = none → hasErrors run.state.bag = true

theorem Resolves.fail {st st' : State fs} {diagnostic : Diagnostic}
    (h : diagnostic.severity = .error) (hs : st.sources.entries <+: st'.sources.entries) :
    Resolves st none (st'.fail diagnostic) where
  dirs := rfl
  sources := hs
  success := nofun
  failure _ := by simp [State.fail, hasErrors, h]

/-- The loop over the dependencies gathers their packages behind the ones it has. -/
theorem resolveDeps_spec {resolve : Path → State fs → Option (Run fs)} {visited : List Path}
    (own : Path → Option (List Path)) (dir : Path) (deps : List Dependency)
    (hr : ∀ dir (st : State fs), st.visited = visited →
      ∃ run, resolve dir st = some run ∧ Resolves st (own dir) run)
    {st : State fs} (hst : st.visited = visited) {resolved : List ResolvedPackage}
    (hacc : ∀ package ∈ resolved, Resolved st.sources package) :
    ∃ run, resolveDeps resolve dir deps st resolved = some run ∧
      Resolves st ((deps.mapM fun dep => own (dir.join dep.path)).map fun parts =>
        resolved.map ResolvedPackage.dir ++ parts.flatten) run := by
  induction deps generalizing st resolved with
  | nil =>
    refine ⟨_, rfl, ⟨by simp, List.prefix_rfl, fun packages h => ?_, nofun⟩⟩
    cases h
    exact ⟨rfl, rfl, hacc⟩
  | cons dep deps ih =>
    obtain ⟨child, hc, hchild⟩ := hr (dir.join dep.path) st hst
    simp only [resolveDeps, hc, Option.bind_eq_bind, Option.bind_some, List.mapM_cons]
    cases hres : child.result with
    | none =>
      have hown : own (dir.join dep.path) = none := by
        rw [← hchild.dirs, hres, Option.map_none]
      exact ⟨_, rfl, ⟨by simp [hown], hchild.sources, nofun, fun _ => hchild.failure hres⟩⟩
    | some packages =>
      have hown : own (dir.join dep.path) = some (packages.map ResolvedPackage.dir) := by
        rw [← hchild.dirs, hres, Option.map_some]
      obtain ⟨hbag, hvisited, hpackages⟩ := hchild.success packages hres
      have hacc' : ∀ package ∈ resolved ++ packages, Resolved child.state.sources package :=
        List.forall_mem_append.2 ⟨fun package hp => ⟨(hacc package hp).manifest,
          SourceManager.name_of_prefix hchild.sources (hacc package hp).file⟩, hpackages⟩
      obtain ⟨run, hrun, h⟩ := ih (hvisited.trans hst) hacc'
      refine ⟨run, hrun, ⟨?_, hchild.sources.trans h.sources, fun all hall => ?_, h.failure⟩⟩
      · rw [h.dirs, hown]
        cases deps.mapM fun dep => own (dir.join dep.path) <;> simp
      · obtain ⟨hbag', hvisited', hall⟩ := h.success all hall
        exact ⟨hbag'.trans hbag, hvisited'.trans hvisited, hall⟩

open Unfold in
/-- **One call** unfolds the dependencies of its directory. -/
theorem resolveInto_spec {n : Nat} (dir : Path) (st : State fs)
    (h : Enough fs.dependencies n st.visited) : ∃ run, resolveInto n dir st = some run ∧
      Resolves st (unfold fs.dependencies n st.visited dir) run := by
  induction n generalizing dir st with
  | zero => exact absurd h.pos (Nat.lt_irrefl 0)
  | succ n ih =>
    rw [resolveInto, unfold]
    by_cases hseen : dir ∈ st.visited
    · rw [if_pos hseen, if_pos hseen]
      exact ⟨_, rfl, .fail rfl List.prefix_rfl⟩
    rw [if_neg hseen, if_neg hseen]
    dsimp only
    rcases st.sources.load_spec dir with ⟨hload, hfile⟩ | ⟨file, sources, hload, hfile, hname, hpre⟩
    · have hdeps : fs.dependencies dir = none := by
        simp [FileSystem.dependencies, FileSystem.manifest, hfile]
      rw [hload, hdeps]
      exact ⟨_, rfl, .fail rfl List.prefix_rfl⟩
    rw [hload]
    dsimp only
    have hmanifest : fs.manifest dir =
        (parseManifest (dir.join kManifestFileName).value (sources.content file) file).toOption := by
      rw [FileSystem.manifest, hfile, Option.bind_some, parseManifest_file _ _ 0 file]
    cases hparse : parseManifest (dir.join kManifestFileName).value (sources.content file) file with
    | error diagnostic =>
      rw [hparse] at hmanifest
      have hdeps : fs.dependencies dir = none := by
        rw [FileSystem.dependencies, hmanifest]
        rfl
      rw [hdeps]
      exact ⟨_, rfl, .fail (reported_parseManifest _ _ _ _ hparse) hpre⟩
    | ok manifest =>
      rw [hparse] at hmanifest
      have hdeps : fs.dependencies dir =
          some (manifest.dependencies.map fun dep => dir.join dep.path) := by
        rw [FileSystem.dependencies, hmanifest]
        rfl
      have hstep := h.step hseen (hdeps ▸ rfl)
      obtain ⟨run, hrun, hspec⟩ : ∃ run, resolveDeps (resolveInto n) dir manifest.dependencies
          ⟨sources, st.bag, st.visited ++ [dir]⟩ [⟨manifest, dir, file⟩] = some run ∧
          Resolves ⟨sources, st.bag, st.visited ++ [dir]⟩ _ run :=
        resolveDeps_spec (unfold fs.dependencies n (st.visited ++ [dir])) dir
          manifest.dependencies (fun dir' st' (hst' : st'.visited = st.visited ++ [dir]) =>
            hst' ▸ ih dir' st' (hst'.symm ▸ hstep)) rfl
          (List.forall_mem_singleton.2 ⟨hmanifest, hname⟩)
      have hdirs : run.result.map (List.map ResolvedPackage.dir) = (do
          let parts ← (manifest.dependencies.map fun dep => dir.join dep.path).mapM
            (unfold fs.dependencies n (st.visited ++ [dir]))
          some (dir :: parts.flatten)) := by
        rw [hspec.dirs, List.mapM_map]
        simp only [Function.comp_def]
        cases manifest.dependencies.mapM fun dep =>
          unfold fs.dependencies n (st.visited ++ [dir]) (dir.join dep.path) <;> rfl
      dsimp only
      rw [hrun, hdeps]
      simp only [Option.bind_eq_bind, Option.bind_some] at hdirs ⊢
      cases hres : run.result with
      | none =>
        refine ⟨run, rfl, hdirs, hpre.trans hspec.sources, fun packages h => ?_, hspec.failure⟩
        cases hres.symm.trans h
      | some packages =>
        obtain ⟨hbag, hvisited, hpackages⟩ := hspec.success packages hres
        rw [hres] at hdirs
        refine ⟨_, rfl, hdirs, hpre.trans hspec.sources, fun all hall => ?_, fun h => ?_⟩
        · cases hall
          exact ⟨hbag, by simp [hvisited], hpackages⟩
        · cases h

/-! ## The packages -/

/-- A directory with its manifest. -/
def FileSystem.package (fs : FileSystem) (dir : Path) : Option (Path × PackageManifest) :=
  (fs.manifest dir).map (dir, ·)

/-- The packages of a run. The id of a file depends on what was loaded before, so it is left out. -/
def Run.packages (run : Run fs) : Option (List (Path × PackageManifest)) :=
  run.result.map (List.map fun package => (package.dir, package.manifest))

/-- The packages that a directory resolves to on its own. -/
def ownPackages (fs : FileSystem) (dir : Path) : Option (List (Path × PackageManifest)) :=
  (resolveInto (fs.length + 1) dir ⟨SourceManager.empty, [], []⟩ : Option (Run fs)).bind
    Run.packages

theorem Resolves.packages {st : State fs} {dirs : Option (List Path)} {run : Run fs}
    (h : Resolves st dirs run) : run.packages = dirs.map (List.filterMap fs.package) := by
  rw [← h.dirs, Run.packages]
  cases hres : run.result with
  | none => rfl
  | some packages =>
    obtain ⟨_, _, hall⟩ := h.success packages hres
    clear hres
    simp only [Option.map_some, Option.some.injEq, List.filterMap_map, Function.comp_def]
    induction packages with
    | nil => rfl
    | cons package packages ih =>
      obtain ⟨hp, hall⟩ := List.forall_mem_cons.1 hall
      simp [FileSystem.package, hp.manifest, ih hall]

open Unfold

theorem mem_of_dependencies {dir : Path} (h : (fs.dependencies dir).isSome = true) :
    dir ∈ fs.map Prod.fst := by
  simp only [FileSystem.dependencies, FileSystem.manifest, FileSystem.manifestFile,
    Option.isSome_map, Option.isSome_iff_exists, Option.bind_eq_some_iff,
    Option.map_eq_some_iff] at h
  obtain ⟨_, _, ⟨entry, hentry, _⟩, _⟩ := h
  have := List.find?_some hentry
  exact List.mem_map.2 ⟨entry, List.mem_of_find?_eq_some hentry, of_decide_eq_true this⟩

theorem enough_start (fs : FileSystem) : Enough fs.dependencies (fs.length + 1) [] :=
  .start (fun _ h => mem_of_dependencies h) (by simp)

theorem manifest_isSome {dir : Path} :
    (fs.dependencies dir).isSome = true ↔ (fs.manifest dir).isSome = true := by
  simp [FileSystem.dependencies]

/-- `q` is a path dependency of `p`. -/
def Depends (fs : FileSystem) : Path → Path → Prop := Edge fs.dependencies

theorem ownPackages_eq (fs : FileSystem) (dir : Path) : ownPackages fs dir =
    (unfold fs.dependencies (fs.length + 1) [] dir).map (List.filterMap fs.package) := by
  obtain ⟨run, hrun, h⟩ := resolveInto_spec dir (⟨SourceManager.empty, [], []⟩ : State fs)
    (enough_start fs)
  rw [ownPackages, hrun, Option.bind_some, h.packages]

/-- **Package dependency resolution is exact.** -/
theorem resolvePackage_exact (fs : FileSystem) (dir : Text) (sources : SourceManager fs)
    (bag : DiagBag) : ∃ run, resolvePackage dir sources bag = some run ∧
      (run.result.isSome = true ↔ '\x00' ∉ dir ∧
        ∀ p, Relation.ReflTransGen (Depends fs) (ofText dir) p →
          (fs.manifest p).isSome = true ∧ ¬ Relation.TransGen (Depends fs) p p) ∧
      (∀ packages, run.packages = some packages → ∃ manifest children,
        fs.manifest (ofText dir) = some manifest ∧
        List.Forall₂ (fun dep child => ownPackages fs ((ofText dir).join dep.path) = some child)
          manifest.dependencies children ∧
        packages = (ofText dir, manifest) :: children.flatten) ∧
      (run.result = none → hasErrors run.state.bag = true) := by
  unfold resolvePackage fromNative
  dsimp only
  by_cases hnul : '\x00' ∈ dir
  · rw [if_pos hnul]
    refine ⟨_, rfl, by simp [State.fail, hnul], fun packages h => (nomatch h), fun _ => ?_⟩
    simp [State.fail, hasErrors]
  · rw [if_neg hnul]
    obtain ⟨run, hrun, h⟩ := resolveInto_spec (ofText dir) (⟨sources, bag, []⟩ : State fs)
      (enough_start fs)
    refine ⟨run, hrun, ?_, fun packages hp => ?_, h.failure⟩
    · rw [← Option.isSome_map (f := List.map ResolvedPackage.dir), h.dirs,
        unfold_isSome (enough_start fs)]
      simp only [hnul, not_false_eq_true, true_and, List.not_mem_nil, manifest_isSome]
      rfl
    · rw [h.packages] at hp
      obtain ⟨dirs, hdirs, rfl⟩ := Option.map_eq_some_iff.1 hp
      obtain ⟨_, succs, parts, hsuccs, hparts, rfl⟩ := unfold_eq_some.1 hdirs
      obtain ⟨manifest, hmanifest, rfl⟩ := Option.map_eq_some_iff.1 hsuccs
      refine ⟨manifest, parts.map (List.filterMap fs.package), hmanifest, ?_, ?_⟩
      · have hstep := (enough_start fs).step List.not_mem_nil (Option.isSome_iff_exists.2 ⟨_, hsuccs⟩)
        rw [List.forall₂_map_right_iff]
        refine (List.forall₂_map_left_iff.1 hparts).imp fun dep part hpart => ?_
        rw [ownPackages_eq, unfold_start hstep (enough_start fs) hpart, Option.map_some]
      · simp [FileSystem.package, hmanifest, List.filterMap_flatten]

end Alcy.Pkg
