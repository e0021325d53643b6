import Alcy.Path.Canonical
import Alcy.Pkg.Manifest
import Alcy.Source
import Mathlib.Data.Char
import Mathlib.Data.List.Lex
import Mathlib.Data.List.Sort

/-! # Source discovery

`walk_sources` and `discover_sources` of `src/pipeline/pipeline.cc`, over directories as trees of
entries. What is found are the regular files with the extension, in directories that are no links
and no packages of their own (`discoverSources_spec`), whatever order `readdir` lists them in
(`discoverSources_reordered`).
-/
namespace Alcy.Pipeline

open Alcy.Diag Alcy.Path Alcy.Source
open Alcy.Pkg (kManifestFileName)

def kPipelineIoError : Nat := 2200

def kSourceExtension : Text := ".al".toList

def hasSourceExtension (path : Text) : Bool :=
  decide (kSourceExtension.length ≤ path.length) &&
    path.drop (path.length - kSourceExtension.length) == kSourceExtension

/-! ## Directories -/

/-- An entry as `readdir` names it and `lstat` sees it, with what is in it where `opendir` opens. -/
inductive DirEntry where
  | directory (name : Text) (opens : Bool) (entries : List DirEntry)
  | regular (name : Text)
  /-- A link or a device. -/
  | other (name : Text)
  /-- An entry that `lstat` does not see. -/
  | unseen (name : Text)

def DirEntry.name : DirEntry → Text
  | .directory name .. | .regular name | .other name | .unseen name => name

def isDots (name : Text) : Bool := name == ['.'] || name == ['.', '.']

mutual

def DirEntry.Listed : DirEntry → Prop
  | .directory _ _ entries => Listed entries
  | .regular _ | .other _ | .unseen _ => True

/-- What `readdir` lists: besides `.` and `..` names without separators, each once. -/
def Listed : List DirEntry → Prop
  | [] => True
  | entry :: entries => (isDots entry.name = true ∨ IsName entry.name) ∧
      entry.name ∉ entries.map DirEntry.name ∧ entry.Listed ∧ Listed entries

end

instance (name : Text) : Decidable (IsName name) :=
  inferInstanceAs (Decidable (_ ≠ _ ∧ _ ≠ _ ∧ _ ≠ _ ∧ _ ∉ _))

mutual

def DirEntry.decideListed : (entry : DirEntry) → Decidable entry.Listed
  | .directory _ _ entries => decideListed entries
  | .regular _ | .other _ | .unseen _ => isTrue trivial

def decideListed : (entries : List DirEntry) → Decidable (Listed entries)
  | [] => isTrue trivial
  | entry :: entries =>
    have := entry.decideListed
    have := decideListed entries
    inferInstanceAs (Decidable (_ ∧ _ ∧ _ ∧ _))

end

instance (entries : List DirEntry) : Decidable (Listed entries) := decideListed entries

/-- The directories that `opendir` opens, with their entries. -/
structure Directories where
  entries : Path → Option (List DirEntry)
  listed : ∀ dir list, entries dir = some list → Listed list

/-- A directory with a manifest is a package of its own. -/
def isNestedPackage (files : Files) (dir : Path) : Bool :=
  files.opens (dir.join kManifestFileName).value

mutual

/-- The round of the loop for one entry: the paths that it pushes. -/
def walkEntry (files : Files) (dir : Path) : DirEntry → List Path
  | .directory name opens entries =>
    if isDots name then []
    else if isNestedPackage files (dir.join name) then []
    else if opens then walkEntries files (dir.join name) entries else []
  | .regular name =>
    if isDots name then []
    else if hasSourceExtension (dir.join name).value then [dir.join name] else []
  | .other _ | .unseen _ => []

def walkEntries (files : Files) (dir : Path) : List DirEntry → List Path
  | [] => []
  | entry :: entries => walkEntry files dir entry ++ walkEntries files dir entries

end

/-- `none` where the directory cannot be opened. -/
def walkSources (files : Files) (disk : Directories) (dir : Path) : Option (List Path) :=
  (disk.entries dir).map (walkEntries files dir)

/-! ## Discovery -/

structure DiscoveredSources where
  root : Text
  files : List FileId

section
variable {files : Files}

/-- The state that a phase leaves, with what it gives unless it failed. -/
structure Outcome (files : Files) (α : Type) where
  sources : SourceManager files
  bag : DiagBag
  result : Option α

def failWith {α : Type} (sources : SourceManager files) (bag : DiagBag) (message : String) :
    Outcome files α :=
  ⟨sources, bag ++ [⟨.error, kPipelineIoError, message, none⟩], none⟩

def quoted (path : Text) : String := "'" ++ String.ofList path ++ "'"

/-- The loop over the paths, with the files it has loaded. -/
def loadAll (root : Path) : List Path → SourceManager files → DiagBag → List FileId →
    Outcome files DiscoveredSources
  | [], sources, bag, loaded => ⟨sources, bag, some ⟨root.value, loaded⟩⟩
  | path :: paths, sources, bag, loaded =>
    match sources.load path.value with
    | .error _ => failWith sources bag ("cannot read source file " ++ quoted path.value)
    | .ok (file, sources) => loadAll root paths sources bag (loaded ++ [file])

/-- `operator<` of paths: that of their strings. -/
def precedes (p q : Path) : Bool := decide (p.value ≤ q.value)

def discoverSources (disk : Directories) (dir : Text) (sources : SourceManager files)
    (bag : DiagBag) : Outcome files DiscoveredSources :=
  match fromNative dir with
  | none => failWith sources bag ("invalid source directory " ++ quoted dir)
  | some root =>
    match walkSources files disk root with
    | none => failWith sources bag ("source directory " ++ quoted dir ++ " is not accessible")
    | some paths =>
      if paths.isEmpty then failWith sources bag ("no source files found under " ++ quoted dir)
      else loadAll root (paths.mergeSort precedes) sources bag []

end

/-! ## Sources -/

/-- **The sources of a directory**: its regular files with the extension, and those of the
directories in it that open and are no packages. -/
inductive IsSource (files : Files) : Path → List DirEntry → Path → Prop
  | file {dir : Path} {entries : List DirEntry} {name : Text} (h : .regular name ∈ entries)
      (hname : isDots name = false) (hext : hasSourceExtension (dir.join name).value = true) :
      IsSource files dir entries (dir.join name)
  | inside {dir path : Path} {entries inner : List DirEntry} {name : Text}
      (h : .directory name true inner ∈ entries) (hname : isDots name = false)
      (hnested : isNestedPackage files (dir.join name) = false)
      (hin : IsSource files (dir.join name) inner path) : IsSource files dir entries path

variable {files : Files} {disk : Directories} {dir : Path}

theorem mem_walkEntries_of_mem {entries : List DirEntry} {entry : DirEntry} {path : Path}
    (he : entry ∈ entries) (h : path ∈ walkEntry files dir entry) :
    path ∈ walkEntries files dir entries := by
  induction entries with
  | nil => exact nomatch he
  | cons first entries ih =>
    rw [walkEntries, List.mem_append]
    rcases List.mem_cons.1 he with rfl | he
    · exact .inl h
    · exact .inr (ih he)

theorem exists_of_mem_walkEntries {entries : List DirEntry} {path : Path}
    (h : path ∈ walkEntries files dir entries) :
    ∃ entry ∈ entries, path ∈ walkEntry files dir entry := by
  induction entries with
  | nil => exact nomatch h
  | cons first entries ih =>
    rw [walkEntries, List.mem_append] at h
    rcases h with h | h
    · exact ⟨first, List.mem_cons_self .., h⟩
    · obtain ⟨entry, he, h⟩ := ih h
      exact ⟨entry, .tail _ he, h⟩

theorem IsSource.mono {entries entries' : List DirEntry} {path : Path}
    (hsub : entries ⊆ entries') (h : IsSource files dir entries path) :
    IsSource files dir entries' path := by
  cases h with
  | file h hname hext => exact .file (hsub h) hname hext
  | inside h hname hnested hin => exact .inside (hsub h) hname hnested hin

mutual

theorem isSource_of_walkEntry {dir path : Path} :
    (entry : DirEntry) → path ∈ walkEntry files dir entry → IsSource files dir [entry] path
  | .directory name opens inner, h => by
    rw [walkEntry] at h
    split at h
    · exact nomatch h
    · next hname =>
      split at h
      · exact nomatch h
      · next hnested =>
        split at h
        · next hopens =>
          subst hopens
          exact .inside (List.mem_singleton_self _) (Bool.eq_false_iff.2 hname)
            (Bool.eq_false_iff.2 hnested) (isSource_of_walkEntries inner h)
        · exact nomatch h
  | .regular name, h => by
    rw [walkEntry] at h
    split at h
    · exact nomatch h
    · next hname =>
      split at h
      · next hext =>
        obtain rfl := List.mem_singleton.1 h
        exact .file (List.mem_singleton_self _) (Bool.eq_false_iff.2 hname) hext
      · exact nomatch h
  | .other _, h | .unseen _, h => nomatch h

theorem isSource_of_walkEntries {dir path : Path} :
    (entries : List DirEntry) → path ∈ walkEntries files dir entries →
      IsSource files dir entries path
  | [], h => nomatch h
  | entry :: entries, h => by
    rw [walkEntries, List.mem_append] at h
    rcases h with h | h
    · exact (isSource_of_walkEntry entry h).mono (by simp)
    · exact (isSource_of_walkEntries entries h).mono (by simp)

end

/-- **The walk finds the sources.** -/
theorem mem_walkEntries {entries : List DirEntry} {path : Path} :
    path ∈ walkEntries files dir entries ↔ IsSource files dir entries path := by
  refine ⟨isSource_of_walkEntries entries, fun h => ?_⟩
  induction h with
  | @file dir entries name h hname hext =>
    refine mem_walkEntries_of_mem h ?_
    rw [walkEntry, hname, hext]
    exact List.mem_singleton_self _
  | @inside dir path entries inner name h hname hnested hin ih =>
    refine mem_walkEntries_of_mem h ?_
    rw [walkEntry, hname, hnested]
    exact ih

/-! ## Where sources are -/

theorem not_dots {name : Text} (h : isDots name = true ∨ IsName name) (hname : isDots name = false) :
    IsName name := h.resolve_left (by simp [hname])

theorem Listed.mem {entries : List DirEntry} (h : Listed entries) {entry : DirEntry}
    (he : entry ∈ entries) :
    (isDots entry.name = true ∨ IsName entry.name) ∧ entry.Listed := by
  induction entries with
  | nil => exact nomatch he
  | cons first entries ih =>
    obtain ⟨hname, -, hinner, hrest⟩ := h
    rcases List.mem_cons.1 he with rfl | he
    exacts [⟨hname, hinner⟩, ih hrest he]

/-- The path leads from one directory to the other by names, through directories that are no
packages. -/
inductive Under (files : Files) (dir : Path) : Path → Prop
  | here : Under files dir dir
  | down {path : Path} {name : Text} (h : Under files dir path) (hname : IsName name)
      (hnested : isNestedPackage files (path.join name) = false) :
      Under files dir (path.join name)

theorem Under.trans {dir' path : Path} (h : Under files dir dir') (h' : Under files dir' path) :
    Under files dir path := by
  induction h' with
  | here => exact h
  | down _ hname hnested ih => exact .down ih hname hnested

/-- **A source is in a directory of its package.** -/
theorem IsSource.under {entries : List DirEntry} {path : Path} (h : IsSource files dir entries path)
    (hl : Listed entries) :
    ∃ dir' name, Under files dir dir' ∧ IsName name ∧ path = dir'.join name := by
  induction h with
  | @file dir entries name h hname _ =>
    exact ⟨dir, name, .here, not_dots (hl.mem h).1 hname, rfl⟩
  | @inside dir path entries inner name h hname hnested _ ih =>
    obtain ⟨hnamed, hinner⟩ := hl.mem h
    obtain ⟨dir', last, hunder, hlast, rfl⟩ := ih hinner
    exact ⟨dir', last, (Under.down .here (not_dots hnamed hname) hnested).trans hunder, hlast, rfl⟩

/-- The names that lead to a path are the last of its parts. -/
theorem Under.stack {path : Path} (h : Under files dir path) :
    ∃ names, path.stack = names ++ dir.stack := by
  induction h with
  | here => exact ⟨[], rfl⟩
  | down _ hname _ ih =>
    obtain ⟨names, hstack⟩ := ih
    exact ⟨_ :: names, by rw [stack_join hname, hstack, List.cons_append]⟩

/-- What an entry gives has its name among its parts. -/
theorem stack_of_walkEntry {entry : DirEntry} {path : Path} (h : path ∈ walkEntry files dir entry)
    (hl : Listed [entry]) : ∃ names, path.stack = names ++ entry.name :: dir.stack := by
  have hsource := isSource_of_walkEntry entry h
  cases hsource with
  | file h' hname =>
    obtain rfl := List.mem_singleton.1 h'
    exact ⟨[], stack_join (not_dots hl.1 hname) dir⟩
  | @inside _ _ _ inner name h' hname _ hin =>
    obtain rfl := List.mem_singleton.1 h'
    have hnamed : IsName name := not_dots hl.1 hname
    obtain ⟨dir', last, hunder, hlast, rfl⟩ := hin.under hl.2.2.1
    obtain ⟨names, hstack⟩ := hunder.stack
    refine ⟨last :: names, ?_⟩
    rw [stack_join hlast, hstack, stack_join hnamed]
    rfl

mutual

theorem nodup_walkEntry {dir : Path} : (entry : DirEntry) → entry.Listed →
    (walkEntry files dir entry).Nodup
  | .directory name opens entries, h => by
    rw [walkEntry]
    split
    · exact .nil
    · split
      · exact .nil
      · split
        · exact nodup_walkEntries entries h
        · exact .nil
  | .regular name, _ => by
    rw [walkEntry]
    split
    · exact .nil
    · split
      · exact List.nodup_singleton _
      · exact .nil
  | .other _, _ | .unseen _, _ => .nil

/-- **No source is found twice.** -/
theorem nodup_walkEntries {dir : Path} : (entries : List DirEntry) → Listed entries →
    (walkEntries files dir entries).Nodup
  | [], _ => .nil
  | entry :: entries, ⟨hname, hfresh, hentry, hrest⟩ => by
    rw [walkEntries, List.nodup_append']
    refine ⟨nodup_walkEntry entry hentry, nodup_walkEntries entries hrest, fun path hp hq => ?_⟩
    obtain ⟨names, hstack⟩ := stack_of_walkEntry hp ⟨hname, List.not_mem_nil, hentry, trivial⟩
    obtain ⟨other, hother, hq⟩ := exists_of_mem_walkEntries hq
    obtain ⟨hotherName, hotherListed⟩ := hrest.mem hother
    obtain ⟨names', hstack'⟩ :=
      stack_of_walkEntry hq ⟨hotherName, List.not_mem_nil, hotherListed, trivial⟩
    have hcat : (names' ++ [other.name]) ++ dir.stack = (names ++ [entry.name]) ++ dir.stack := by
      simpa using hstack'.symm.trans hstack
    obtain ⟨-, he⟩ := List.append_inj' (List.append_cancel_right hcat) rfl
    exact hfresh (List.mem_map.2 ⟨other, hother, List.singleton_inj.1 he⟩)

end

/-- **Two packages share no directory**: of two directories with manifests, one does not lead to
what the other leads to. -/
theorem Under.eq_of_both {dir' path : Path} (h : Under files dir path) (h' : Under files dir' path)
    (hm : isNestedPackage files dir = true) (hm' : isNestedPackage files dir' = true) :
    dir = dir' := by
  induction h with
  | here =>
    cases h' with
    | here => rfl
    | down _ _ hnested => rw [hm] at hnested; cases hnested
  | @down path name h hname hnested ih =>
    generalize hpath : path.join name = last at h'
    cases h' with
    | here => rw [hpath, hm'] at hnested; cases hnested
    | down h' hname' _ =>
      obtain ⟨rfl, rfl⟩ := join_inj hname hname' hpath
      exact ih h'

/-! ## Any order -/

/-- The entries in another order, in the directory and below. -/
inductive Reordered : List DirEntry → List DirEntry → Prop
  | perm {entries entries' : List DirEntry} (h : entries.Perm entries') :
      Reordered entries entries'
  | inside {before after inner inner' : List DirEntry} {name : Text} {opens : Bool}
      (h : Reordered inner inner') :
      Reordered (before ++ .directory name opens inner :: after)
        (before ++ .directory name opens inner' :: after)
  | trans {entries entries' entries'' : List DirEntry} (h : Reordered entries entries')
      (h' : Reordered entries' entries'') : Reordered entries entries''

theorem walkEntries_eq (entries : List DirEntry) :
    walkEntries files dir entries = entries.flatMap (walkEntry files dir) := by
  induction entries with
  | nil => rfl
  | cons entry entries ih => rw [walkEntries, ih, List.flatMap_cons]

theorem walkEntries_perm {dir : Path} {entries entries' : List DirEntry}
    (h : Reordered entries entries') :
    (walkEntries files dir entries).Perm (walkEntries files dir entries') := by
  induction h generalizing dir with
  | perm h =>
    rw [walkEntries_eq, walkEntries_eq]
    exact h.flatMap_right _
  | @inside before after inner inner' name opens _ ih =>
    have hinner : (walkEntry files dir (.directory name opens inner)).Perm
        (walkEntry files dir (.directory name opens inner')) := by
      rw [walkEntry, walkEntry]
      split
      · exact .refl _
      · split
        · exact .refl _
        · split
          · exact ih
          · exact .refl _
    simp only [walkEntries_eq, List.flatMap_append, List.flatMap_cons]
    exact (hinner.append_right _).append_left _
  | trans _ _ ih ih' => exact ih.trans ih'

/-! ## What is discovered -/

theorem precedes_trans (p q r : Path) (hpq : precedes p q = true) (hqr : precedes q r = true) :
    precedes p r = true :=
  decide_eq_true (le_trans (of_decide_eq_true hpq) (of_decide_eq_true hqr))

theorem precedes_total (p q : Path) : (precedes p q || precedes q p) = true := by
  simpa [precedes] using le_total p.value q.value

theorem precedes_antisymm (p q : Path) (hpq : precedes p q = true) (hqp : precedes q p = true) :
    p = q :=
  Path.ext (le_antisymm (of_decide_eq_true hpq) (of_decide_eq_true hqp))

theorem mergeSort_eq_of_perm {paths paths' : List Path} (h : paths.Perm paths') :
    paths.mergeSort precedes = paths'.mergeSort precedes := by
  have hsorted (paths : List Path) := List.pairwise_mergeSort precedes_trans precedes_total paths
  exact ((List.mergeSort_perm ..).trans (h.trans (List.mergeSort_perm ..).symm)).eq_of_pairwise
    (fun p q _ _ => precedes_antisymm p q) (hsorted paths) (hsorted paths')

/-- Paths without repetition, in order. -/
def InOrder (paths : List Path) : Prop := paths.Pairwise fun p q => p.value < q.value

theorem inOrder_mergeSort {paths : List Path} (h : paths.Nodup) :
    InOrder (paths.mergeSort precedes) := by
  have hsorted := List.pairwise_mergeSort precedes_trans precedes_total paths
  have hnodup := (List.mergeSort_perm paths precedes).nodup_iff.2 h
  refine (hsorted.and hnodup).imp fun {p q} hpq => ?_
  obtain ⟨hle, hne⟩ := hpq
  by_contra hlt
  exact hne (precedes_antisymm p q hle (decide_eq_true (not_lt.1 hlt)))

/-- The loaded files, by the paths they were loaded from. -/
abbrev LoadedFrom (sources : SourceManager files) : List FileId → List Path → Prop :=
  List.Forall₂ fun file path => Named sources file path.value

theorem loadAll_spec (root : Path) (paths : List Path) (sources : SourceManager files)
    (bag : DiagBag) (loaded : List FileId) :
    let run := loadAll root paths sources bag loaded
    (∀ found, run.result = some found → run.bag = bag ∧ found.root = root.value ∧
      (∀ path ∈ paths, Loads files path.value) ∧
      ∃ new, found.files = loaded ++ new ∧ LoadedFrom run.sources new paths) ∧
    (run.result = none →
      (∃ message, run.bag = bag ++ [⟨.error, kPipelineIoError, message, none⟩]) ∧
        ∃ path ∈ paths, ¬ Loads files path.value) ∧
    Kept sources run.sources := by
  induction paths generalizing sources loaded with
  | nil =>
    refine ⟨?_, nofun, .refl _⟩
    rintro found ⟨⟩
    exact ⟨rfl, rfl, nofun, [], (List.append_nil _).symm, .nil⟩
  | cons path paths ih =>
    simp only [loadAll]
    cases hload : sources.load path.value with
    | error e =>
      refine ⟨nofun, fun _ => ⟨⟨_, rfl⟩, path, List.mem_cons_self .., fun hloads => ?_⟩, .refl _⟩
      obtain ⟨_, _, h⟩ := exists_load sources hloads
      cases hload.symm.trans h
    | ok result =>
      obtain ⟨file, sources'⟩ := result
      obtain ⟨hnamed, hk, hloads⟩ := load_ok hload
      obtain ⟨hfound, hnone, hk'⟩ := ih sources' (loaded ++ [file])
      refine ⟨fun found h => ?_, fun h => ?_, hk.trans hk'⟩
      · obtain ⟨hbag, hroot, hall, new, hfiles, hnew⟩ := hfound found h
        exact ⟨hbag, hroot, List.forall_mem_cons.2 ⟨hloads, hall⟩, file :: new, by simp [hfiles],
          .cons (hnamed.kept hk') hnew⟩
      · obtain ⟨hmessage, p, hp, hnot⟩ := hnone h
        exact ⟨hmessage, p, .tail _ hp, hnot⟩

/-- The files are the sources of the directory, in the order of their paths. -/
def SourcesOf (disk : Directories) (root : Path) (sources : SourceManager files)
    (found : List FileId) : Prop :=
  ∃ entries paths, disk.entries root = some entries ∧ InOrder paths ∧
    (∀ path, path ∈ paths ↔ IsSource files root entries path) ∧ LoadedFrom sources found paths

theorem SourcesOf.kept {root : Path} {sources sources' : SourceManager files} {found : List FileId}
    (h : SourcesOf disk root sources found) (hk : Kept sources sources') :
    SourcesOf disk root sources' found := by
  obtain ⟨entries, paths, hentries, horder, hmem, hloaded⟩ := h
  exact ⟨entries, paths, hentries, horder, hmem, hloaded.imp fun _ _ hn => hn.kept hk⟩

/-- The directory opens and has sources, and all of them can be read. -/
def Discoverable (files : Files) (disk : Directories) (dir : Text) : Prop :=
  ∃ root entries, fromNative dir = some root ∧ disk.entries root = some entries ∧
    (∃ path, IsSource files root entries path) ∧
    ∀ path, IsSource files root entries path → Loads files path.value

/-- **Discovery is exact.** It succeeds where the directory opens, has sources and they can all be
read. It gives them once each, in order, and reports nothing. Where it fails it reports one
error. -/
theorem discoverSources_spec (disk : Directories) (dir : Text) (sources : SourceManager files)
    (bag : DiagBag) :
    let run := discoverSources disk dir sources bag
    (∀ found, run.result = some found → run.bag = bag ∧ ∃ root, fromNative dir = some root ∧
      found.root = root.value ∧ SourcesOf disk root run.sources found.files) ∧
    (run.result = none →
      ∃ message, run.bag = bag ++ [⟨.error, kPipelineIoError, message, none⟩]) ∧
    (run.result.isSome = true ↔ Discoverable files disk dir) ∧ Kept sources run.sources := by
  unfold discoverSources
  cases hroot : fromNative dir with
  | none =>
    refine ⟨nofun, fun _ => ⟨_, rfl⟩, iff_of_false nofun ?_, .refl _⟩
    rintro ⟨_, _, h, _⟩
    cases hroot.symm.trans h
  | some root =>
    simp only [walkSources]
    cases hentries : disk.entries root with
    | none =>
      refine ⟨nofun, fun _ => ⟨_, rfl⟩, iff_of_false nofun ?_, .refl _⟩
      rintro ⟨_, _, h, hlisting, _⟩
      cases hroot.symm.trans h
      cases hentries.symm.trans hlisting
    | some entries =>
      have hdiscoverable : Discoverable files disk dir ↔
          (∃ path, IsSource files root entries path) ∧
          ∀ path, IsSource files root entries path → Loads files path.value := by
        refine ⟨?_, fun ⟨hsome, hall⟩ => ⟨root, entries, hroot, hentries, hsome, hall⟩⟩
        rintro ⟨root', entries', hroot', hentries', h⟩
        cases hroot.symm.trans hroot'
        cases hentries.symm.trans hentries'
        exact h
      simp only [Option.map_some, List.isEmpty_iff]
      split
      · next hnil =>
        refine ⟨nofun, fun _ => ⟨_, rfl⟩, iff_of_false nofun fun h => ?_, .refl _⟩
        obtain ⟨⟨path, hpath⟩, -⟩ := hdiscoverable.1 h
        rw [← mem_walkEntries, hnil] at hpath
        exact absurd hpath List.not_mem_nil
      · next hne =>
        have hmem (path : Path) : path ∈ (walkEntries files root entries).mergeSort precedes ↔
            IsSource files root entries path := List.mem_mergeSort.trans mem_walkEntries
        have hnodup : (walkEntries files root entries).Nodup :=
          nodup_walkEntries entries (disk.listed root entries hentries)
        have horder := inOrder_mergeSort hnodup
        obtain ⟨hfound, hnone, hk⟩ := loadAll_spec root
          ((walkEntries files root entries).mergeSort precedes) sources bag []
        refine ⟨fun found h => ?_, fun h => (hnone h).1, ?_, hk⟩
        · obtain ⟨hbag, hroot', -, new, hfiles, hloaded⟩ := hfound found h
          rw [List.nil_append] at hfiles
          exact ⟨hbag, root, rfl, hroot', entries, _, hentries, horder, hmem, hfiles ▸ hloaded⟩
        · rw [hdiscoverable]
          constructor
          · intro h
            obtain ⟨found, h⟩ := Option.isSome_iff_exists.1 h
            obtain ⟨-, -, hall, -⟩ := hfound found h
            obtain ⟨path, hpath⟩ := List.exists_mem_of_ne_nil _ hne
            exact ⟨⟨path, mem_walkEntries.1 hpath⟩, fun p hp => hall p ((hmem p).2 hp)⟩
          · rintro ⟨-, hall⟩
            rw [Option.isSome_iff_ne_none]
            intro h
            obtain ⟨-, path, hpath, hnot⟩ := hnone h
            exact hnot (hall path ((hmem path).1 hpath))

/-- The directories as another run of `readdir` lists them. -/
def SameDirectories (disk disk' : Directories) : Prop :=
  ∀ dir, Option.Rel Reordered (disk.entries dir) (disk'.entries dir)

/-- **Builds are deterministic**: discovery does not depend on the order in which directories list
their entries. -/
theorem discoverSources_reordered {disk disk' : Directories} (h : SameDirectories disk disk')
    (dir : Text) (sources : SourceManager files) (bag : DiagBag) :
    discoverSources disk dir sources bag = discoverSources disk' dir sources bag := by
  unfold discoverSources walkSources
  cases fromNative dir with
  | none => rfl
  | some root =>
    have hlisting := h root
    dsimp only
    cases hl : disk.entries root <;> cases hl' : disk'.entries root <;>
      rw [hl, hl'] at hlisting <;> cases hlisting
    case some.some.some entries entries' hre =>
      have hperm : (walkEntries files root entries).Perm (walkEntries files root entries') :=
        walkEntries_perm hre
      have hempty := hperm.isEmpty_eq
      simp only [Option.map_some, hempty, mergeSort_eq_of_perm hperm]

/-- A package `app` with its own package `dep` in it. -/
def appPaths : List Text :=
  ["app/alcy.toml", "app/a.al", "app/b.al", "app/dep/alcy.toml", "app/dep/c.al"].map String.toList

def appFiles : Files := ⟨fun path => decide (path ∈ appPaths), fun path =>
  if path ∈ appPaths then some [] else none⟩

def depEntries : List DirEntry := [.regular "alcy.toml".toList, .regular "c.al".toList]

def appEntries : List DirEntry :=
  [.other "link".toList, .regular "a.al".toList, .directory "dep".toList true depEntries,
    .regular "b.al".toList]

theorem listed_app : Listed appEntries ∧ Listed depEntries := by decide

/-- The two directories, with the entries of `app` in this order. -/
def appDirectories (entries : List DirEntry) (h : Listed entries) : Directories where
  entries dir := if dir.value = "app".toList then some entries
    else if dir.value = "app/dep".toList then some depEntries else none
  listed dir list hlist := by
    split at hlist
    · cases hlist
      exact h
    · split at hlist
      · cases hlist
        exact listed_app.2
      · cases hlist

theorem discoverSources_reordered_app : ∃ h : Listed appEntries.reverse,
    discoverSources (appDirectories appEntries listed_app.1) "app".toList
      (.empty : SourceManager appFiles) [] =
    discoverSources (appDirectories appEntries.reverse h) "app".toList .empty [] := by
  have h : Listed appEntries.reverse := by decide
  refine ⟨h, discoverSources_reordered (fun dir => ?_) _ _ _⟩
  simp only [appDirectories]
  split
  · exact .some (.perm (List.reverse_perm _).symm)
  · split
    · exact .some (.perm (.refl _))
    · exact .none

end Alcy.Pipeline
