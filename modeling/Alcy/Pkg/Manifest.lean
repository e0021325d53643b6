import Alcy.Diag
import Alcy.Lib.Guards
import Alcy.Path

/-! # Package manifests

`src/pkg/manifest.cc` and the parsing of versions in `manifest.h`. The TOML parser is not part of
the repository: a file comes with what the parser makes of its bytes. Every way to fail emits one
diagnostic and returns, so a failure is that diagnostic.
-/
namespace Alcy.Pkg

open Alcy.Diag Alcy.Path

abbrev FileId := Nat

/-- The characters of a key or a message. -/
def text (s : String) : Text := s.toList

/-! ## TOML -/

/-- A `toml::node`. Numbers, booleans and dates are not told apart. -/
inductive Node where
  | string (value : Text)
  | table (entries : List (Text × Node))
  | array (elements : List Node)
  | other

/-- A `toml::table`, in the order of its keys. -/
abbrev Table := List (Text × Node)

namespace Node

/-- `value<std::string_view>()`. -/
def asString : Node → Option Text
  | .string value => some value
  | _ => none

def asTable : Node → Option Table
  | .table entries => some entries
  | _ => none

def asArray : Node → Option (List Node)
  | .array elements => some elements
  | _ => none

end Node

def Table.find (t : Table) (key : String) : Option Node :=
  (t.find? fun entry => entry.1 == text key).map Prod.snd

/-- A `toml::parse_error`, with the two ends of its region. -/
structure ParseError where
  description : String
  beginLine : Nat
  beginColumn : Nat
  endLine : Nat
  endColumn : Nat

/-- A manifest file: its bytes, and what `toml::parse` makes of them. -/
structure ManifestFile where
  bytes : List UInt8
  parsed : Except ParseError Table

/-! ## Versions -/

structure Version where
  major : Nat
  minor : Nat
  patch : Nat
  deriving DecidableEq

inductive VersionError where
  | empty
  | badFormat
  deriving DecidableEq

/-- `std::from_chars` to a `u32`, when it reads the whole part. -/
def fromChars (part : Text) : Option Nat :=
  if part ≠ [] ∧ part.all Char.isDigit then
    let value := part.foldl (fun value c => 10 * value + (c.toNat - '0'.toNat)) 0
    if value < 2 ^ 32 then some value else none
  else none

def versionPart (part : Text) : Except VersionError Nat :=
  if part = [] then .error .badFormat
  else match fromChars part with
    | some value => .ok value
    | none => .error .badFormat

/-- What stands before the first dot, and after it. -/
def cutAtDot (text : Text) : Except VersionError (Text × Text) :=
  match text.dropWhile (· != '.') with
  | [] => .error .badFormat
  | _ :: rest => .ok (text.takeWhile (· != '.'), rest)

/-- `parse_version`: strict `X.Y.Z` numerics. -/
def parseVersion (text : Text) : Except VersionError Version := do
  if text = [] then throw .empty
  let (part, rest) ← cutAtDot text
  let major ← versionPart part
  let (part, rest) ← cutAtDot rest
  let minor ← versionPart part
  let patch ← versionPart rest
  pure ⟨major, minor, patch⟩

/-! ## Manifests -/

structure BinTarget where
  name : Text
  path : Text
  deriving DecidableEq

structure Dependency where
  name : Text
  path : Text
  deriving DecidableEq

structure PackageManifest where
  name : Text
  version : Version
  edition : Text
  dependencies : List Dependency
  bins : List BinTarget
  deriving DecidableEq

def kManifestFileName : Text := text "alcy.toml"

def kManifestSyntaxError : Nat := 2000
def kManifestSemanticError : Nat := 2001

/-- The bytes before a line, with `lines` of them left to skip. -/
def skipLines : Nat → List UInt8 → Nat
  | 0, _ | _ + 1, [] => 0
  | lines + 1, byte :: bytes =>
    1 + skipLines (if byte == '\n'.toUInt8 then lines else lines + 1) bytes

/-- A 1-based line and column as a byte offset, clamped; the sum is a `u32`. -/
def lineColToOffset (bytes : List UInt8) (line column : Nat) : Nat :=
  min ((skipLines (line - 1) bytes + (column - 1)) % 2 ^ 32) bytes.length

def tomlSpan (bytes : List UInt8) (file : FileId) (error : ParseError) : Span :=
  let start := lineColToOffset bytes error.beginLine error.beginColumn
  let stop := lineColToOffset bytes error.endLine error.endColumn
  ⟨file, start, if start < stop then stop - start else 0⟩

section
variable (filename : Text)

/-- `semantic_error`. -/
def semanticError (message : String) : Diagnostic :=
  let name := String.ofList filename
  ⟨.error, kManifestSemanticError, s!"manifest '{name}': {message}", none⟩

/-- Registry-style `foo = "1.0"` has no path to follow. -/
def registryError (dependency : Text) : Diagnostic :=
  semanticError filename ("dependency '" ++ String.ofList dependency ++
    "' needs \x7b path = ... \x7d; registry dependencies are not supported")

/-- A value that a failed check reports as `error`. -/
def require {α : Type} (value : Option α) (error : Diagnostic) : Except Diagnostic α :=
  match value with
  | some a => .ok a
  | none => .error error

/-- A string that may not be empty. -/
def requireText (node : Node) (error : Diagnostic) : Except Diagnostic Text :=
  require (node.asString.filter (· ≠ [])) error

/-- An entry that may be absent. -/
def optional {α : Type} (node : Option Node) (absent : α) (read : Node → Except Diagnostic α) :
    Except Diagnostic α :=
  match node with
  | some node => read node
  | none => .ok absent

def parseDependency (entry : Text × Node) : Except Diagnostic Dependency := do
  let table ← require entry.2.asTable (registryError filename entry.1)
  let path ← require (table.find "path") (registryError filename entry.1)
  let path ← requireText path (semanticError filename "dependency path must be a string")
  pure ⟨entry.1, path⟩

def parseBin (node : Node) : Except Diagnostic BinTarget := do
  let table ← require node.asTable (semanticError filename "[[bin]] entries must be tables")
  let path ← require (table.find "path") (semanticError filename "[[bin]] entry needs a path")
  let path ← requireText path (semanticError filename "[[bin]] path must be a string")
  let name ← optional (table.find "name") [] fun name =>
    requireText name (semanticError filename "[[bin]] name must be a string")
  pure ⟨name, path⟩

/-- The checks of `parse_manifest` on a parsed table. -/
def readManifest (root : Table) : Except Diagnostic PackageManifest := do
  let package ← require ((root.find "package").bind Node.asTable)
    (semanticError filename "missing [package] table")
  let name ← require (package.find "name") (semanticError filename "missing [package] name")
  let name ← requireText name (semanticError filename "[package] name must be a string")
  let version ← require (package.find "version")
    (semanticError filename "missing [package] version")
  let version ← require version.asString
    (semanticError filename "[package] version must be a string")
  let version ← require (parseVersion version).toOption
    (semanticError filename "invalid [package] version")
  let edition ← optional (package.find "edition") [] fun edition =>
    require edition.asString (semanticError filename "[package] edition must be a string")
  let dependencies ← optional (root.find "dependencies") [] fun dependencies => do
    let table ← require dependencies.asTable
      (semanticError filename "[dependencies] must be a table")
    table.mapM (parseDependency filename)
  let bins ← optional (root.find "bin") [] fun bins => do
    let bins ← require bins.asArray
      (semanticError filename "[[bin]] must be an array of tables")
    bins.mapM (parseBin filename)
  pure ⟨name, version, edition, dependencies, bins⟩

def parseManifest (content : ManifestFile) (file : FileId) : Except Diagnostic PackageManifest :=
  match content.parsed with
  | .error error => .error ⟨.error, kManifestSyntaxError, s!"TOML syntax error: {error.description}",
      some (tomlSpan content.bytes file error)⟩
  | .ok root => readManifest filename root

/-! ## Failures -/

open Alcy.Lib.Guards

/-- What fails, fails with an error. -/
abbrev Reported {α : Type} (x : Except Diagnostic α) : Prop :=
  Errors (fun d => d.severity = .error) x

theorem reported_require {α : Type} (value : Option α) {error : Diagnostic}
    (h : error.severity = .error) : Reported (require value error) := by
  cases value with
  | none => exact .error h
  | some a => exact .ok

theorem reported_optional {α : Type} (node : Option Node) (absent : α)
    {read : Node → Except Diagnostic α} (h : ∀ node, Reported (read node)) :
    Reported (optional node absent read) := by
  cases node with
  | none => exact .ok
  | some node => exact h node

theorem reported_dependency (entry : Text × Node) : Reported (parseDependency filename entry) :=
  (reported_require _ rfl).bind fun _ => (reported_require _ rfl).bind fun _ =>
    (reported_require _ rfl).bind fun _ => .ok

theorem reported_bin (node : Node) : Reported (parseBin filename node) :=
  (reported_require _ rfl).bind fun _ => (reported_require _ rfl).bind fun _ =>
    (reported_require _ rfl).bind fun _ =>
    (reported_optional _ _ fun _ => reported_require _ rfl).bind fun _ => .ok

theorem reported_readManifest (root : Table) : Reported (readManifest filename root) := by
  refine (reported_require _ rfl).bind fun _ => (reported_require _ rfl).bind fun _ =>
    (reported_require _ rfl).bind fun _ => (reported_require _ rfl).bind fun _ =>
    (reported_require _ rfl).bind fun _ => (reported_require _ rfl).bind fun _ =>
    (reported_optional _ _ fun _ => reported_require _ rfl).bind fun _ =>
    (reported_optional _ _ fun _ => ?_).bind fun _ =>
    (reported_optional _ _ fun _ => ?_).bind fun _ => .ok
  · exact (reported_require _ rfl).bind fun _ => .mapM (reported_dependency filename) _
  · exact (reported_require _ rfl).bind fun _ => .mapM (reported_bin filename) _

/-- **A manifest that is refused is reported.** -/
theorem reported_parseManifest (content : ManifestFile) (file : FileId) :
    Reported (parseManifest filename content file) := by
  unfold parseManifest
  split
  exacts [.error rfl, reported_readManifest filename _]

/-- What a manifest says does not depend on the id its file was given. -/
theorem parseManifest_file (content : ManifestFile) (file file' : FileId) :
    (parseManifest filename content file).toOption =
      (parseManifest filename content file').toOption := by
  unfold parseManifest
  split <;> rfl

end

end Alcy.Pkg
