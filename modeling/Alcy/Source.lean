import Alcy.Path
import Mathlib.Data.List.Nodup

/-! # Source files

`source::SourceManager` over files that the operating system opens and maps. A path is loaded once.
Its number stays its own (`Named.unique`), and its bytes are those of the file.
-/
namespace Alcy.Source

open Alcy.Path

abbrev FileId := Nat

/-- What `io` makes of a path: whether it opens, and the bytes that it maps, none when it does not.
An empty file is not mapped and has no bytes. -/
structure Files where
  opens : Text → Bool
  bytes : Text → Option (List UInt8)

inductive SourceError where
  | openFailed
  | mapFailed
  deriving DecidableEq

/-- The loaded files, by their numbers. -/
structure SourceManager (files : Files) where
  entries : List (Text × List UInt8)
  nodup : (entries.map Prod.fst).Nodup
  onDisk : ∀ entry ∈ entries, files.opens entry.1 = true ∧ files.bytes entry.1 = some entry.2

namespace SourceManager

variable {files : Files} (sources : SourceManager files)

def empty : SourceManager files := ⟨[], .nil, nofun⟩

/-- The file that a path was loaded as. -/
def find (path : Text) : Option FileId :=
  sources.entries.findIdx? fun entry => entry.1 = path

theorem not_mem_of_find {path : Text} (h : sources.find path = none) :
    path ∉ sources.entries.map Prod.fst := by
  rw [find, List.findIdx?_eq_none_iff] at h
  intro hmem
  obtain ⟨entry, he, rfl⟩ := List.mem_map.1 hmem
  simpa using h entry he

/-- The manager with one more file. -/
def push (path : Text) (bytes : List UInt8) (hfind : sources.find path = none)
    (hopens : files.opens path = true) (hbytes : files.bytes path = some bytes) :
    SourceManager files where
  entries := sources.entries ++ [(path, bytes)]
  nodup := by
    rw [List.map_append, List.nodup_append']
    refine ⟨sources.nodup, List.nodup_singleton _, ?_⟩
    simpa using sources.not_mem_of_find hfind
  onDisk := List.forall_mem_append.2 ⟨sources.onDisk, by simpa using ⟨hopens, hbytes⟩⟩

def load (path : Text) : Except SourceError (FileId × SourceManager files) :=
  match hfind : sources.find path with
  | some file => .ok (file, sources)
  | none =>
    if hopens : files.opens path = true then
      match hbytes : files.bytes path with
      | some bytes => .ok (sources.entries.length, sources.push path bytes hfind hopens hbytes)
      | none => .error .mapFailed
    else .error .openFailed

/-- A file that is not loaded has no bytes. -/
def bytes (file : FileId) : List UInt8 := (sources.entries[file]?).elim [] Prod.snd

/-- A file that is not loaded has no name. -/
def name (file : FileId) : Text := (sources.entries[file]?).elim [] Prod.fst

end SourceManager

/-! ## What is loaded stays -/

variable {files : Files} {sources sources' sources'' : SourceManager files} {path : Text}
  {file : FileId}

/-- The files of one manager are those of the other, under the same numbers. -/
def Kept (sources sources' : SourceManager files) : Prop := sources.entries <+: sources'.entries

theorem Kept.refl (sources : SourceManager files) : Kept sources sources := List.prefix_rfl

theorem Kept.trans (h : Kept sources sources') (h' : Kept sources' sources'') :
    Kept sources sources'' := List.IsPrefix.trans h h'

/-- The file has that path. -/
def Named (sources : SourceManager files) (file : FileId) (path : Text) : Prop :=
  ∃ bytes, sources.entries[file]? = some (path, bytes)

theorem Named.kept (h : Named sources file path) (hk : Kept sources sources') :
    Named sources' file path := by
  obtain ⟨bytes, hbytes⟩ := h
  obtain ⟨more, hmore⟩ := hk
  have hlt := (List.getElem?_eq_some_iff.1 hbytes).1
  exact ⟨bytes, by rw [← hmore, List.getElem?_append_left hlt, hbytes]⟩

/-- **A path has one number.** -/
theorem Named.unique {file' : FileId} (h : Named sources file path)
    (h' : Named sources file' path) : file = file' := by
  obtain ⟨bytes, hbytes⟩ := h
  obtain ⟨bytes', hbytes'⟩ := h'
  have hpath : (sources.entries.map Prod.fst)[file]? = (sources.entries.map Prod.fst)[file']? := by
    rw [List.getElem?_map, List.getElem?_map, hbytes, hbytes']
    rfl
  have hlt : file < (sources.entries.map Prod.fst).length := by
    rw [List.length_map]
    exact (List.getElem?_eq_some_iff.1 hbytes).1
  exact (List.getElem?_inj hlt sources.nodup).1 hpath

theorem Named.path_eq {path' : Text} (h : Named sources file path) (h' : Named sources file path') :
    path = path' := by
  obtain ⟨bytes, hbytes⟩ := h
  obtain ⟨bytes', hbytes'⟩ := h'
  cases hbytes.symm.trans hbytes'
  rfl

theorem named_of_find (h : sources.find path = some file) : Named sources file path := by
  rw [SourceManager.find, List.findIdx?_eq_some_iff_getElem] at h
  obtain ⟨hlt, hpath, -⟩ := h
  refine ⟨sources.entries[file].2, ?_⟩
  rw [List.getElem?_eq_getElem hlt, ← of_decide_eq_true hpath]

/-! ## Loading -/

/-- The file can be read. -/
def Loads (files : Files) (path : Text) : Prop :=
  files.opens path = true ∧ (files.bytes path).isSome = true

/-- **Loading a path** gives its number and keeps the files from before. -/
theorem load_ok (h : sources.load path = .ok (file, sources')) :
    Named sources' file path ∧ Kept sources sources' ∧ Loads files path := by
  unfold SourceManager.load at h
  split at h
  · next found hfind =>
    cases h
    obtain ⟨bytes, hbytes⟩ := named_of_find hfind
    obtain ⟨hopens, hdisk⟩ := sources.onDisk _ (List.mem_of_getElem? hbytes)
    exact ⟨⟨bytes, hbytes⟩, .refl _, hopens, by rw [hdisk]; rfl⟩
  · split at h
    · next hopens =>
      split at h
      · next bytes hbytes =>
        cases h
        refine ⟨⟨bytes, List.getElem?_concat_length⟩, List.prefix_append .., hopens, ?_⟩
        rw [hbytes]
        rfl
      · cases h
    · cases h

/-- A file that can be read is loaded. -/
theorem exists_load (sources : SourceManager files) (h : Loads files path) :
    ∃ file sources', sources.load path = .ok (file, sources') := by
  obtain ⟨hopens, hbytes⟩ := h
  unfold SourceManager.load
  split
  · exact ⟨_, _, rfl⟩
  · rw [dif_pos hopens]
    split
    · exact ⟨_, _, rfl⟩
    · next hnone =>
      rw [hnone] at hbytes
      cases hbytes

end Alcy.Source
