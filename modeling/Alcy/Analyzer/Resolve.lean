import Alcy.Ast
import Alcy.Lib.Search

/-! # Import resolution

`src/analyzer/resolve.cc` after the module tree is built: the local names of each
module, the three-state walk over the modules, and the resolution of one `use`.
Loops and recursion of the source stay where they are; the recursion takes fuel,
and `resolveAll` supplies more than any tree can use up. -/
namespace Alcy.Analyzer.Resolve
open Alcy.Ast Alcy.Diag
open Alcy.Lib.Search (Mark)

def kAnalyzerUnresolvedImport : Nat := 4202
def kAnalyzerAmbiguousImport : Nat := 4203

/-- Structs and enums occupy `type` and `value` alike; functions, statics and
constants `value`; submodules `module`. -/
inductive Namespace where
  | type
  | value
  | module
  deriving Repr, DecidableEq, Inhabited

/-- `name` in this module refers to `member` of the module at `targetModule`. -/
structure Import where
  name : String
  ns : Namespace
  targetModule : Nat
  member : String
  isPub : Bool
  deriving Repr, DecidableEq, Inhabited

/-- A module before its imports are known; `parent` is kept by the resolver
(`parents`, where `kNoModule` is `none`). -/
structure ModuleNode where
  path : String
  file : Option Nat
  items : List Item
  parent : Option Nat
  children : List Nat
  deriving Repr, Inhabited

/-- What `build_tree` leaves behind. Indexes into the tree stay in it. -/
structure Tree where
  packageName : String
  modules : List ModuleNode
  nonempty : 0 < modules.length
  children_lt : ∀ node ∈ modules, ∀ child ∈ node.children, child < modules.length
  parent_lt : ∀ node ∈ modules, ∀ parent, node.parent = some parent → parent < modules.length

namespace Tree

def node (t : Tree) (module : Nat) : ModuleNode := t.modules.getD module default

/-- The last `::` segment of a module's path. -/
def moduleName (t : Tree) (module : Nat) : String :=
  String.ofList ((t.node module).path.toList.reverse.takeWhile (· ≠ ':')).reverse

def findChildModule (t : Tree) (module : Nat) (name : String) : Option Nat :=
  (t.node module).children.find? fun child => t.moduleName child = name

/-- The root's index: the first module with an empty path, index 0 without one. -/
def rootIndex (t : Tree) : Nat := (t.modules.findIdx? fun node => node.path = "").getD 0

/-! ## Local names -/

def localTypes (t : Tree) (module : Nat) : List String :=
  (t.node module).items.filterMap fun
    | .struct decl => some decl.name.name
    | .enum decl => some decl.name.name
    | _ => none

def localValues (t : Tree) (module : Nat) : List String :=
  (t.node module).items.filterMap fun
    | .struct decl => some decl.name.name
    | .enum decl => some decl.name.name
    | .fn decl => some decl.name.name
    | .static decl => some decl.name.name
    | .const decl => some decl.name.name
    | .mod .. | .use _ | .impl _ => none

def localModules (t : Tree) (module : Nat) : List String :=
  (t.node module).children.map t.moduleName

def locals (t : Tree) (module : Nat) : Namespace → List String
  | .type => t.localTypes module
  | .value => t.localValues module
  | .module => t.localModules module

def lookupLocal (t : Tree) (module : Nat) (member : String) (ns : Namespace) : Bool :=
  (t.locals module ns).contains member

/-- The order in which `resolve_use` tries the namespaces. -/
def namespaces : List Namespace := [.module, .type, .value]

def isLocal (t : Tree) (module : Nat) (member : String) : Bool :=
  namespaces.any (t.lookupLocal module member)

/-! ## Paths of `use` items -/

/-- The module the first segment names, or the text of the error. -/
def headModule (t : Tree) (module : Nat) (head : String) : Except String Nat :=
  if head = "package" ∨ head = t.packageName then .ok t.rootIndex
  else if head = "self" then .ok module
  else if head = "super" then
    match (t.node module).parent with
    | none => .error "the root module has no parent"
    | some parent => .ok parent
  else
    match t.findChildModule module head with
    | none => .error ("unresolved import '" ++ head ++ "'")
    | some child => .ok child

/-- The segments between the first and the last, each a child module. -/
def walkModules (t : Tree) : Nat → List String → Except String Nat
  | current, [] => .ok current
  | current, segment :: rest =>
    match t.findChildModule current segment with
    | none => .error ("unresolved import '" ++ segment ++ "'")
    | some child => t.walkModules child rest

/-- The module a `use` path reaches before its last segment. -/
def useModule (t : Tree) (module : Nat) (use : UseItem) : Except String Nat :=
  match use.path.segments.map (·.name) with
  | [] | [_] => .error "imports must be module-qualified (\x60self::foo\x60)"
  | head :: second :: rest => do
    let current ← t.headModule module head
    t.walkModules current (second :: rest).dropLast

/-- The last segment: what is imported. -/
def useMember (use : UseItem) : String := (use.path.segments.map (·.name)).getLastD ""

/-- What the import is called here: the alias, or the member's own name. -/
def useName (use : UseItem) : String := (use.aliasName.map (·.name)).getD (useMember use)

end Tree

open Tree (namespaces useMember useName)

/-! ## The resolver's state -/

/-- `exports_state`, `module_imports` and the bag. `resolved` logs each `use` that
`resolve_use` was entered for, as its module and its place among the items; the
source keeps no such list and nothing below reads it. -/
structure ExportState where
  mark : Nat → Mark
  imports : Nat → List Import
  bag : DiagBag
  resolved : List (Nat × Nat)

def ExportState.start : ExportState := ⟨fun _ => .fresh, fun _ => [], [], []⟩

def ExportState.report (s : ExportState) (code : Nat) (span : Span) (message : String) :
    ExportState :=
  { s with bag := emit s.bag .error code span message }

def ExportState.setMark (s : ExportState) (module : Nat) (mark : Mark) : ExportState :=
  { s with mark := Function.update s.mark module mark }

def ExportState.push (s : ExportState) (module : Nat) (imp : Import) : ExportState :=
  { s with imports := Function.update s.imports module (s.imports module ++ [imp]) }

variable (t : Tree)

def addImport (module : Nat) (use : UseItem) (name : String) (ns : Namespace) (target : Nat)
    (member : String) (s : ExportState) : ExportState :=
  if t.lookupLocal module name ns then
    s.report kAnalyzerAmbiguousImport use.span ("\x60" ++ name ++ "\x60 conflicts with a local item")
  else if (s.imports module).any fun prior => prior.ns = ns && prior.name = name then
    s.report kAnalyzerAmbiguousImport use.span ("\x60" ++ name ++ "\x60 is imported more than once")
  else
    s.push module ⟨name, ns, target, member, use.isPub⟩

/-- A member among the public imports of a module. -/
def lookupReexport (s : ExportState) (module : Nat) (member : String) (ns : Namespace) :
    Option Import :=
  (s.imports module).find? fun imp => imp.isPub && imp.ns = ns && imp.name = member

/-- The first namespace loop of `resolve_use`: the target's own items. -/
def importLocals (module : Nat) (use : UseItem) (current : Nat) :
    List Namespace → ExportState → ExportState
  | [], s => s
  | ns :: rest, s =>
    importLocals module use current rest <|
      if t.lookupLocal current (useMember use) ns then
        addImport t module use (useName use) ns current (useMember use) s
      else s

/-- The second loop: the target's re-exports, with the `resolved` flag. -/
def importReexports (module : Nat) (use : UseItem) (current : Nat) :
    List Namespace → ExportState → Bool → ExportState × Bool
  | [], s, resolved => (s, resolved)
  | ns :: rest, s, resolved =>
    match lookupReexport s current (useMember use) ns with
    | none => importReexports module use current rest s resolved
    | some imp =>
      importReexports module use current rest
        (addImport t module use (useName use) ns imp.targetModule imp.member s) true

/-- `resolve_use`; `resolveExports` is the call back into the module walk. -/
def resolveUse (resolveExports : Nat → ExportState → Option ExportState) (module : Nat)
    (use : UseItem) (s : ExportState) : Option ExportState :=
  match t.useModule module use with
  | .error message => some (s.report kAnalyzerUnresolvedImport use.span message)
  | .ok current =>
    -- locals first: a member found there needs no recursion
    if t.isLocal current (useMember use) then
      some (importLocals t module use current namespaces s)
    else do
      let s ← if current ≠ module then resolveExports current s else some s
      let (s, resolved) := importReexports t module use current namespaces s false
      if resolved then some s
      else some (s.report kAnalyzerUnresolvedImport use.span
        ("unresolved import '" ++ useMember use ++ "'"))

def useEntry : Item × Nat → Option (UseItem × Nat)
  | (.use use, place) => some (use, place)
  | _ => none

/-- The `use` items of a module with their places. -/
def Tree.useItems (module : Nat) : List (UseItem × Nat) :=
  (t.node module).items.zipIdx.filterMap useEntry

/-- Public uses first: the two loops of `resolve_exports` one after the other. -/
def Tree.uses (module : Nat) : List (UseItem × Nat) :=
  (t.useItems module).filter (fun u => u.1.isPub) ++
    (t.useItems module).filter fun u => !u.1.isPub

def cycleMessage : String := "dependency cycle in re-exports"

/-- `resolve_exports`: fresh modules are entered, done ones skipped, and one met
while in progress is reported and closed. `none` means the fuel ran out. -/
def resolveExports : Nat → Nat → ExportState → Option ExportState
  | 0, _, _ => none
  | fuel + 1, module, s =>
    match s.mark module with
    | .done => some s
    | .active =>
      let span := ((t.node module).items.head?.map Item.span).getD default
      some ((s.report kAnalyzerUnresolvedImport span cycleMessage).setMark module .done)
    | .fresh => do
      let s ← (t.uses module).foldlM
        (fun s u => resolveUse t (resolveExports fuel) module u.1
          { s with resolved := s.resolved ++ [(module, u.2)] })
        (s.setMark module .active)
      some (s.setMark module .done)

/-- The loop of `run` over all modules. -/
def resolveModules (fuel : Nat) : Option ExportState :=
  (List.range t.modules.length).foldlM (fun s module => resolveExports t fuel module s) .start

/-- One unit of fuel more than there are modules: each level of the recursion
closes a fresh module. -/
def resolveAll : Option ExportState := resolveModules t (t.modules.length + 1)

end Alcy.Analyzer.Resolve
