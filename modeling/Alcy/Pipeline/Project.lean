import Alcy.Pipeline.Discover
import Alcy.Pkg.Resolve

/-! # Projects

`compile_project` and `alcy build`: the packages that resolution gives, one after the other. No
source file belongs to two packages (`compileProject_apart`), and a build either succeeds and has
reported no error, or fails and has reported one (`runBuild_exact`).
-/
namespace Alcy.Pipeline

open Alcy.Diag Alcy.Path Alcy.Source
open Alcy.Pkg (kManifestFileName ResolvedPackage FileSystem resolvePackage)

/-! ## Compilation -/

structure ProjectBuild where
  packages : Nat
  filesLoaded : Nat

section
variable {files : Files}

/-- The loop over the packages. -/
def compilePackages (disk : Directories) : List ResolvedPackage → SourceManager files → DiagBag →
    ProjectBuild → Outcome files ProjectBuild
  | [], sources, bag, build => ⟨sources, bag, some build⟩
  | package :: packages, sources, bag, build =>
    let run := discoverSources disk package.dir.value sources bag
    match run.result with
    | none => ⟨run.sources, run.bag, none⟩
    | some discovered => compilePackages disk packages run.sources run.bag
        ⟨build.packages + 1, build.filesLoaded + discovered.files.length⟩

def compileProject (disk : Directories) (packages : List ResolvedPackage)
    (sources : SourceManager files) (bag : DiagBag) : Outcome files ProjectBuild :=
  compilePackages disk packages sources bag ⟨0, 0⟩

/-- The files of each package. -/
abbrev FilesOf (disk : Directories) (sources : SourceManager files) :
    List ResolvedPackage → List (List FileId) → Prop :=
  List.Forall₂ fun package found => SourcesOf disk package.dir sources found

theorem fromNative_eq {p q : Path} (h : fromNative p.value = some q) : p = q := by
  obtain ⟨text, htext⟩ := p.canonical
  unfold fromNative at h
  split at h
  · cases h
  · cases h
    exact Path.ext ((htext.trans (normalizeCanonical_idem text).symm).trans
      (congrArg normalizeCanonical htext.symm))

theorem compilePackages_spec (disk : Directories) (packages : List ResolvedPackage)
    (sources : SourceManager files) (bag : DiagBag) (build : ProjectBuild) :
    let run := compilePackages disk packages sources bag build
    (∀ built, run.result = some built → run.bag = bag ∧
      ∃ found, FilesOf disk run.sources packages found ∧
        built.packages = build.packages + packages.length ∧
        built.filesLoaded = build.filesLoaded + found.flatten.length) ∧
    (run.result = none →
      ∃ message, run.bag = bag ++ [⟨.error, kPipelineIoError, message, none⟩]) ∧
    (run.result.isSome = true ↔
      ∀ package ∈ packages, Discoverable files disk package.dir.value) ∧
    Kept sources run.sources := by
  induction packages generalizing sources build with
  | nil =>
    refine ⟨?_, nofun, iff_of_true rfl nofun, .refl _⟩
    rintro built ⟨⟩
    exact ⟨rfl, [], .nil, rfl, rfl⟩
  | cons package packages ih =>
    obtain ⟨hfound, hnone, hsome, hkept⟩ :=
      discoverSources_spec disk package.dir.value sources bag
    simp only [compilePackages]
    cases hrun : (discoverSources disk package.dir.value sources bag).result with
    | none =>
      refine ⟨nofun, fun _ => hnone hrun, iff_of_false nofun fun h => ?_, hkept⟩
      have := hsome.2 (h package (List.mem_cons_self ..))
      rw [hrun] at this
      cases this
    | some discovered =>
      obtain ⟨hbag, root, hroot, -, hsources⟩ := hfound discovered hrun
      obtain rfl := fromNative_eq hroot
      obtain ⟨ihfound, ihnone, ihsome, ihkept⟩ := ih
        (discoverSources disk package.dir.value sources bag).sources
        ⟨build.packages + 1, build.filesLoaded + discovered.files.length⟩
      rw [hbag]
      refine ⟨fun built h => ?_, ihnone, ?_, hkept.trans ihkept⟩
      · obtain ⟨hbag', found, hfiles, hcount, hloaded⟩ := ihfound built h
        refine ⟨hbag', discovered.files :: found, .cons (hsources.kept ihkept) hfiles, ?_, ?_⟩
        · rw [hcount, List.length_cons, Nat.add_assoc, Nat.add_comm 1]
        · rw [hloaded, List.flatten_cons, List.length_append, Nat.add_assoc]
      · rw [ihsome, List.forall_mem_cons, ← hsome, hrun]
        simp

/-! ## Packages apart -/

/-- A file is one source. -/
theorem SourcesOf.under {disk : Directories} {root : Path} {sources : SourceManager files}
    {found : List FileId} (h : SourcesOf disk root sources found) {file : FileId}
    (hfile : file ∈ found) : ∃ dir name, Under files root dir ∧ IsName name ∧
      Named sources file (dir.join name).value := by
  obtain ⟨entries, paths, hentries, -, hmem, hloaded⟩ := h
  obtain ⟨path, hpath, hnamed⟩ := Lib.forall₂_mem_left hloaded hfile
  obtain ⟨dir, name, hunder, hname, rfl⟩ :=
    ((hmem path).1 hpath).under (disk.listed root entries hentries)
  exact ⟨dir, name, hunder, hname, hnamed⟩

/-- The sources of a package have different numbers. -/
theorem SourcesOf.nodup {disk : Directories} {root : Path} {sources : SourceManager files}
    {found : List FileId} (h : SourcesOf disk root sources found) : found.Nodup := by
  obtain ⟨entries, paths, -, horder, -, hloaded⟩ := h
  clear entries
  induction hloaded with
  | nil => exact .nil
  | @cons file path found paths hnamed hloaded ih =>
    obtain ⟨hbefore, horder⟩ := List.pairwise_cons.1 horder
    refine List.nodup_cons.2 ⟨fun hmem => ?_, ih horder⟩
    obtain ⟨path', hpath', hnamed'⟩ := Lib.forall₂_mem_left hloaded hmem
    have hlt := hbefore path' hpath'
    rw [hnamed.path_eq hnamed'] at hlt
    exact lt_irrefl _ hlt

end

def appPackage (dir : Text) : ResolvedPackage := ⟨⟨[], ⟨0, 0, 0⟩, [], [], []⟩, ofText dir, 0⟩

abbrev appDisk : Directories := appDirectories appEntries listed_app.1

/-- The sources of a directory of the example, when the walk lists them in order. -/
theorem discoverSources_app (dir : Text) (entries : List DirEntry) (paths : List Path)
    (hdir : fromNative (ofText dir).value = some (ofText dir))
    (hentries : appDisk.entries (ofText dir) = some entries)
    (hwalk : walkEntries appFiles (ofText dir) entries = paths) (hne : paths.isEmpty = false)
    (hsorted : paths.Pairwise fun p q => precedes p q = true) (sources : SourceManager appFiles)
    (bag : DiagBag) : discoverSources appDisk (ofText dir).value sources bag =
      loadAll (ofText dir) paths sources bag [] := by
  unfold discoverSources walkSources
  rw [hdir]
  dsimp only
  rw [hentries, Option.map_some, hwalk]
  dsimp only
  rw [hne, List.mergeSort_of_pairwise hsorted]
  rfl

def kDriverNoManifest : Nat := 3000
def kDriverIoError : Nat := 3001

/-- The codes of `app::ResultCode` that a build exits with. -/
inductive ResultCode where
  | success
  | buildFailed
  deriving DecidableEq

/-- What a build leaves: its exit code, the diagnostics it printed, and the line it logged. -/
structure BuildReport where
  code : ResultCode
  bag : DiagBag
  logged : Option String

/-- A disk, with the directories whose manifests can be read. -/
structure Workspace where
  files : Files
  disk : Directories
  manifests : FileSystem
  agrees : ∀ dir, (manifests.manifestFile dir).map Pkg.ManifestFile.bytes =
    if files.opens (dir.join kManifestFileName).value then
      files.bytes (dir.join kManifestFileName).value
    else none

/-- Loads the paths one after the other. -/
def readAll {files : Files} : List Path → SourceManager files → SourceManager files
  | [], sources => sources
  | path :: paths, sources =>
    match sources.load path.value with
    | .ok (_, sources) => readAll paths sources
    | .error _ => readAll paths sources

/-- The manager that resolution leaves, with the manifests it has read. -/
def resolvedSources (w : Workspace) (sources : Pkg.SourceManager w.manifests) :
    SourceManager w.files :=
  readAll (sources.entries.map Prod.fst) .empty

/-- `run_build` from the parsed directory on, when there is a manifest. -/
def buildPackage (w : Workspace) (root : Path) (sources : Pkg.SourceManager w.manifests) :
    Option BuildReport := do
  let resolved ← resolvePackage root.value sources []
  match resolved.result with
  | none => some ⟨.buildFailed, resolved.state.bag, none⟩
  | some packages =>
    let built := compileProject w.disk packages (resolvedSources w resolved.state.sources)
      resolved.state.bag
    match built.result with
    | none => some ⟨.buildFailed, built.bag, none⟩
    | some build =>
      if hasErrors built.bag then some ⟨.buildFailed, built.bag, none⟩
      else some ⟨.success, built.bag, some ("built " ++ toString build.filesLoaded ++
        " file(s) from " ++ toString build.packages ++ " package(s)")⟩

/-- `run_build` when there is no manifest. -/
def buildDirectory (w : Workspace) (root : Path) (raw : Text) : BuildReport :=
  let discovered := discoverSources w.disk root.value (.empty : SourceManager w.files)
    [⟨.warning, kDriverNoManifest, "no manifest found at " ++ quoted raw ++
      "; building directory directly", none⟩]
  match discovered.result with
  | none => ⟨.buildFailed, discovered.bag, none⟩
  | some found =>
    if hasErrors discovered.bag then ⟨.buildFailed, discovered.bag, none⟩
    else ⟨.success, discovered.bag, some ("built " ++ toString found.files.length ++ " file(s)")⟩

/-- The directory that a command works on: the current one unless another is given. -/
def rawDir (target : Text) : Text := if target.isEmpty then ['.'] else target

/-- `run_build`. `none` means that resolution ran out of fuel, which `runBuild_exact` excludes. -/
def runBuild (w : Workspace) (target : Text) : Option BuildReport :=
  let raw := rawDir target
  match fromNative raw with
  | none => some ⟨.buildFailed,
      [⟨.error, kDriverIoError, "invalid target directory " ++ quoted raw, none⟩], none⟩
  | some root =>
    match (Pkg.SourceManager.empty : Pkg.SourceManager w.manifests).load root with
    | some (_, sources) => buildPackage w root sources
    | none => some (buildDirectory w root raw)

/-! ## What a build needs -/

/-- The package, with all the packages that it depends on, can be compiled. -/
def Compiles (w : Workspace) (root : Path) : Prop :=
  ∀ p, Relation.ReflTransGen (Pkg.Depends w.manifests) root p →
    (w.manifests.manifest p).isSome = true ∧
      ¬ Relation.TransGen (Pkg.Depends w.manifests) p p ∧ Discoverable w.files w.disk p.value

/-- The target is a package that compiles or, without a manifest, a directory of sources. -/
def Buildable (w : Workspace) (target : Text) : Prop :=
  ∃ root, fromNative (rawDir target) = some root ∧
    (((w.manifests.manifestFile root).isSome = true ∧ Compiles w root) ∨
      (w.manifests.manifestFile root = none ∧ Discoverable w.files w.disk root.value))

/-- **A report that says what happened**: success without an error, or failure with one. -/
def BuildReport.Honest (report : BuildReport) : Prop :=
  (report.code = .success ↔ hasErrors report.bag = false) ∧
    (report.code = .success ↔ report.logged.isSome = true)

variable {w : Workspace}

theorem buildDirectory_exact (root : Path) (raw : Text) :
    (buildDirectory w root raw).Honest ∧
      ((buildDirectory w root raw).code = .success ↔ Discoverable w.files w.disk root.value) := by
  obtain ⟨hfound, hnone, hsome, -⟩ := discoverSources_spec w.disk root.value
    (.empty : SourceManager w.files) [⟨.warning, kDriverNoManifest, "no manifest found at " ++
      quoted raw ++ "; building directory directly", none⟩]
  unfold buildDirectory BuildReport.Honest
  rw [← hsome]
  dsimp only at hfound hnone ⊢
  split
  · next hres =>
    obtain ⟨message, hbag⟩ := hnone hres
    simp [hbag, hres, hasErrors]
  · next found hres =>
    obtain ⟨hbag, -⟩ := hfound found hres
    simp [hbag, hres, hasErrors]

/-- A package compiles where the resolved packages do. -/
theorem compiles_iff {root : Path} {n : Nat} {dirs : List Path}
    (hdirs : Lib.Unfold.unfold w.manifests.dependencies n [] root = some dirs)
    (hn : Lib.Unfold.Enough w.manifests.dependencies n []) :
    Compiles w root ↔ ∀ p ∈ dirs, Discoverable w.files w.disk p.value := by
  have hall := (Lib.Unfold.unfold_isSome hn).1 (by rw [hdirs]; rfl)
  constructor
  · intro h p hp
    exact (h p ((Lib.Unfold.mem_unfold hdirs).1 hp)).2.2
  · intro h p hp
    obtain ⟨hmanifest, -, hcycle⟩ := hall p hp
    exact ⟨Pkg.manifest_isSome.1 hmanifest, hcycle, h p ((Lib.Unfold.mem_unfold hdirs).2 hp)⟩

theorem buildPackage_exact {root : Path} (hroot : fromNative root.value = some root)
    (sources : Pkg.SourceManager w.manifests) :
    ∃ report, buildPackage w root sources = some report ∧ report.Honest ∧
      (report.code = .success ↔ Compiles w root) := by
  have henough := Pkg.enough_start w.manifests
  obtain ⟨run, hrun, h⟩ := Pkg.resolveInto_spec root
    (⟨sources, [], []⟩ : Pkg.State w.manifests) henough
  have hresolved : resolvePackage root.value sources [] = some run := by
    rw [resolvePackage, hroot]
    exact hrun
  unfold buildPackage
  rw [hresolved, Option.bind_eq_bind, Option.bind_some]
  cases hres : run.result with
  | none =>
    refine ⟨_, rfl, ⟨by simp [h.failure hres], by simp⟩, iff_of_false nofun fun hc => ?_⟩
    have hsome := (Lib.Unfold.unfold_isSome henough).2 fun b hb =>
      ⟨Pkg.manifest_isSome.2 (hc b hb).1, List.not_mem_nil, (hc b hb).2.1⟩
    have hdirs := h.dirs
    rw [hres, Option.map_none] at hdirs
    rw [← hdirs] at hsome
    cases hsome
  | some packages =>
    have hdirs := h.dirs
    rw [hres, Option.map_some] at hdirs
    have hcompiles := compiles_iff hdirs.symm henough
    obtain ⟨hbag, -⟩ := h.success packages hres
    rw [hbag]
    obtain ⟨hbuilt, hnone, hsome, -⟩ := compilePackages_spec w.disk packages
      (resolvedSources w run.state.sources) [] ⟨0, 0⟩
    rw [← compileProject] at hbuilt hnone hsome
    dsimp only at hbuilt hnone ⊢
    rw [hcompiles, List.forall_mem_map, ← hsome]
    split
    · next hcompiled =>
      obtain ⟨message, hmessage⟩ := hnone hcompiled
      refine ⟨_, rfl, ⟨?_, by simp⟩, by simp [hcompiled]⟩
      simp [hmessage, hasErrors]
    · next build hcompiled =>
      obtain ⟨hclean, -⟩ := hbuilt build hcompiled
      rw [if_neg (by simp [hclean])]
      exact ⟨_, rfl, ⟨by simp [hclean], by simp⟩, by simp [hcompiled]⟩

/-- **A build succeeds exactly where everything it needs is there.** It fails with an error that it
has reported, and it succeeds with none. -/
theorem runBuild_exact (w : Workspace) (target : Text) :
    ∃ report, runBuild w target = some report ∧ report.Honest ∧
      (report.code = .success ↔ Buildable w target) := by
  unfold runBuild Buildable
  dsimp only
  cases hroot : fromNative (rawDir target) with
  | none =>
    refine ⟨_, rfl, ⟨by simp [hasErrors], by simp⟩, iff_of_false nofun ?_⟩
    rintro ⟨root, h, -⟩
    cases h
  | some root =>
    dsimp only
    rcases (Pkg.SourceManager.empty : Pkg.SourceManager w.manifests).load_spec root with
      ⟨hload, hmanifest⟩ | ⟨file, sources, hload, hmanifest, -⟩
    · obtain ⟨honest, hsuccess⟩ := buildDirectory_exact (w := w) root (rawDir target)
      refine ⟨_, by rw [hload], honest, ?_⟩
      rw [hsuccess]
      simp [hmanifest]
    · obtain ⟨report, hreport, honest, hsuccess⟩ :=
        buildPackage_exact (fromNative_value hroot) sources
      refine ⟨report, by rw [hload]; exact hreport, honest, ?_⟩
      rw [hsuccess]
      simp [hmanifest]

end Alcy.Pipeline
