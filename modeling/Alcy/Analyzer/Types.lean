import Alcy.Analyzer.Imports
import Alcy.Ir.Builder
import Alcy.Ir.Values

/-! # Resolving types

The type side of `check_package` (`src/analyzer/types.cc`): the registered nominals, the resolution
of every type position of the items, and the search for recursive types. Bodies are checked in
between; of that phase there is what it does to the type table.

A program of the checker is stuck where the source reads a table out of range, where a check of the
builder fails, and where the nominals nest deeper than there are nominals.
-/
namespace Alcy.Analyzer.Types
open Alcy.Ast Alcy.Diag Alcy.Ir
open Alcy.Analyzer.Resolve (Tree Import Namespace)

def kAnalyzerRecursiveType : Nat := 4210
def kAnalyzerUnknownType : Nat := 4211
def kAnalyzerDuplicateDefinition : Nat := 4212
def kAnalyzerReservedName : Nat := 4213
def kAnalyzerArityMismatch : Nat := 4214
def kAnalyzerGenericArguments : Nat := 4215
def kAnalyzerUnsupportedType : Nat := 4216

/-- What the checker is given: the tree with its imports, the target's pointer width, and the ids
that the interner gives to names. -/
structure Package where
  tree : Tree
  imports : Nat → List Import
  width : PointerWidth
  pool : String → StringPoolId

/-! ## State -/

/-- The declaration of a nominal. -/
inductive NominalItem where
  | struct (decl : StructItem)
  | enum (decl : EnumItem)

namespace NominalItem

def ident : NominalItem → Ident
  | .struct decl => decl.name
  | .enum decl => decl.name

def name (item : NominalItem) : String := item.ident.name

def span (item : NominalItem) : Span := item.ident.span

def tag : NominalItem → TypeTag
  | .struct _ => .struct
  | .enum _ => .enum

/-- The names of a struct's fields, with its type; nothing for an enum. -/
def structInfo (type : TypeIdx) : NominalItem → List (TypeIdx × List String)
  | .struct decl => [(type, decl.fields.map (·.name.name))]
  | .enum _ => []

end NominalItem

/-- The struct or enum that an item declares. -/
def asNominal : Item → Option NominalItem
  | .struct decl => some (.struct decl)
  | .enum decl => some (.enum decl)
  | _ => none

/-- `NominalEntry`; the name and the span are the declaration's. -/
structure NominalEntry where
  module : Nat
  item : NominalItem
  type : TypeIdx
  started : Bool
  complete : Bool

structure BlessedEntry where
  isResult : Bool
  args : List TypeIdx
  type : TypeIdx

/-- One call of `resolve_type` and the index it returned. -/
structure Resolution where
  module : Nat
  type : Ty
  self : Option TypeIdx
  idx : TypeIdx

/-- The types of a package while they are resolved. `resolutions` is the history of `resolve_type`;
the source keeps no such list and nothing below reads it. -/
structure Table where
  storage : Storage
  nominals : List NominalEntry
  blessed : List BlessedEntry
  resolutions : List Resolution

inductive ReceiverKind where
  | none
  | byValue
  | shared
  | exclusive
  deriving DecidableEq

structure FnSig where
  name : String
  params : List TypeIdx
  ret : TypeIdx

structure MethodInfo where
  selfType : TypeIdx
  sig : FnSig
  receiver : ReceiverKind

/-- `CheckedModule`: what the module declares, with its types. -/
structure CheckedModule where
  types : List (String × TypeIdx)
  structs : List (TypeIdx × List String)
  functions : List FnSig
  methods : List MethodInfo
  statics : List (String × TypeIdx)

def emptyModule : CheckedModule := ⟨[], [], [], [], []⟩

structure CheckState where
  bag : DiagBag
  table : Table
  modules : Nat → CheckedModule

def CheckState.start : CheckState :=
  ⟨[], ⟨Storage.initial, [], [], []⟩, fun _ => emptyModule⟩

abbrev CheckM := StateT CheckState Option

def report (code : Nat) (span : Span) (message : String) : CheckM Unit :=
  modify fun st => { st with bag := emit st.bag .error code span message }

def modifyTable (f : Table → Table) : CheckM Unit :=
  modify fun st => { st with table := f st.table }

def modifyModule (module : Nat) (f : CheckedModule → CheckedModule) : CheckM Unit :=
  modify fun st => { st with modules := Function.update st.modules module (f (st.modules module)) }

/-- A step of `builder`. -/
def build {α : Type} (m : Build α) : CheckM α := fun st => do
  let (a, storage) ← m st.table.storage
  some (a, { st with table := { st.table with storage } })

/-! ## Names -/

/-- `parents`: the last module that has the other one among its children. -/
def parent (t : Tree) (module : Nat) : Option Nat :=
  ((List.range t.modules.length).filter fun m => (t.node m).children.contains module).getLast?

def findChildModule (t : Tree) (module : Nat) (name : String) : Option Nat :=
  (List.range t.modules.length).find? fun i => parent t i = some module && t.moduleName i = name

def findNominal (nominals : List NominalEntry) (module : Nat) (name : String) : Option Nat :=
  nominals.findIdx? fun entry => entry.module = module && entry.item.name = name

/-- The first segment of a prefix; `what` names the namespace in the message. -/
def prefixHead (t : Tree) (module : Nat) (what head : String) : Except String Nat :=
  if head = "package" then .ok t.rootIndex
  else if head = "self" then .ok module
  else if head = "super" then
    match parent t module with
    | none => .error "the root module has no parent"
    | some up => .ok up
  else
    match findChildModule t module head with
    | none => .error ("unresolved " ++ what ++ " '" ++ head ++ "'")
    | some child => .ok child

def prefixRest (t : Tree) (what : String) : Nat → List String → Except String Nat
  | current, [] => .ok current
  | current, segment :: rest =>
    match findChildModule t current segment with
    | none => .error ("unresolved " ++ what ++ " '" ++ segment ++ "'")
    | some child => prefixRest t what child rest

/-- `walk_module_prefix`: the module that all segments but the last lead to. -/
def walkModulePrefix (t : Tree) (module : Nat) (path : Path) (what : String) : Except String Nat :=
  match path.segments.map (·.name) with
  | [] | [_] => .ok module
  | head :: second :: rest => do
    let current ← prefixHead t module what head
    prefixRest t what current (second :: rest).dropLast

/-- The name of a path of one segment. -/
def singleSegment (path : Path) : Option String :=
  match path.segments with
  | [segment] => some segment.name
  | _ => none

/-- The nominal that `resolve_type` finds in a module: a declaration of its own, or for a path of
one segment the first import that leads to one. -/
def lookupNominal (p : Package) (nominals : List NominalEntry) (module : Nat) (path : Path)
    (targetModule : Nat) (targetName : String) : Option Nat :=
  match findNominal nominals targetModule targetName with
  | some e => some e
  | none =>
    if (singleSegment path).isSome then
      (p.imports module).findSome? fun imp =>
        if imp.ns = .type ∧ imp.name = targetName then
          findNominal nominals imp.targetModule imp.member
        else none
    else none

variable (p : Package)

/-- `resolve_type_path`, which reports no error for a path without segments. -/
def resolveTypePath (module : Nat) (path : Path) : CheckM (Option (Nat × String)) :=
  match path.segments.getLast? with
  | none => return none
  | some last =>
    match walkModulePrefix p.tree module path "type" with
    | .error message => do
      report kAnalyzerUnknownType path.span message
      return none
    | .ok target => return some (target, last.name)

/-! ## Types -/

def errorType : CheckM TypeIdx := build StorageBuilder.errorType

def primitiveType (kind : PrimitiveKind) (span : Span) : CheckM TypeIdx :=
  match kind with
  | .i8 => return primitiveIdx .i8
  | .i16 => return primitiveIdx .i16
  | .i32 => return primitiveIdx .i32
  | .i64 => return primitiveIdx .i64
  | .isize => return primitiveIdx (if p.width = .w64 then .i64 else .i32)
  | .u8 => return primitiveIdx .u8
  | .u16 => return primitiveIdx .u16
  | .u32 => return primitiveIdx .u32
  | .u64 => return primitiveIdx .u64
  | .usize => return primitiveIdx (if p.width = .w64 then .u64 else .u32)
  | .f32 => return primitiveIdx .f32
  | .f64 => return primitiveIdx .f64
  | .bool => return primitiveIdx .i1
  | .str => return primitiveIdx .str
  | .i128 | .u128 => do
    report kAnalyzerUnsupportedType span "type is not supported in MVP"
    errorType

/-- The payload of `Err`, and the empty one of `None`. -/
def secondPayload (isResult : Bool) (args : List TypeIdx) : Option IdxRange :=
  if isResult then (args[1]?).map fun second => ⟨second, 1⟩ else some SeqBuilder.empty.finish

/-- `intern_blessed`: one node for each list of arguments. -/
def internBlessed (isResult : Bool) (args : List TypeIdx) : CheckM TypeIdx := do
  let st ← get
  match st.table.blessed.find? fun entry => entry.isResult = isResult && entry.args = args with
  | some entry => return entry.type
  | none =>
    let first ← args[0]?
    let ok ← build (StorageBuilder.enumVariant (p.pool (if isResult then "Ok" else "Some")) ⟨first, 1⟩)
    let variants ← SeqBuilder.empty.push ok
    let payload ← secondPayload isResult args
    let err ← build (StorageBuilder.enumVariant (p.pool (if isResult then "Err" else "None")) payload)
    let variants ← variants.push err
    let type ← build
      (StorageBuilder.enumType (p.pool (if isResult then "Result" else "Option")) variants.finish)
    modifyTable fun table => { table with blessed := table.blessed ++ [⟨isResult, args, type⟩] }
    return type

/-- Whether a path of one segment is `Result` or `Option`. -/
def blessedPath (path : Path) : Option Bool :=
  if singleSegment path = some "Result" then some true
  else if singleSegment path = some "Option" then some false
  else none

def blessedArity (isResult : Bool) : Nat := if isResult then 2 else 1

def arityMessage (isResult : Bool) : String :=
  if isResult then "'Result' expects 2 arguments" else "'Option' expects 1 argument"

/-- `Self`: the type of the surrounding block. -/
def selfType (span : Span) (args : List Ty) (self : Option TypeIdx) : CheckM TypeIdx :=
  match self with
  | none => do
    report kAnalyzerUnknownType span "Self outside of an impl block"
    errorType
  | some idx =>
    if args.isEmpty then return idx
    else do
      report kAnalyzerGenericArguments span "generic arguments are not supported"
      errorType

/-- A path that names a declaration. -/
def nominalType (intern : Nat → CheckM TypeIdx) (module : Nat) (span : Span) (path : Path) :
    CheckM TypeIdx := do
  match ← resolveTypePath p module path with
  | none => errorType
  | some (targetModule, targetName) =>
    let st ← get
    match lookupNominal p st.table.nominals module path targetModule targetName with
    | none =>
      report kAnalyzerUnknownType span ("'" ++ targetName ++ "' is not a type")
      errorType
    | some e => intern e

/-- The call, entered into the history with what it returns. -/
def recorded (module : Nat) (type : Ty) (self : Option TypeIdx) (m : CheckM TypeIdx) :
    CheckM TypeIdx := do
  let idx ← m
  modifyTable fun table =>
    { table with resolutions := table.resolutions ++ [⟨module, type, self, idx⟩] }
  return idx

mutual

/-- `resolve_type`; `intern` is the call into `intern_nominal`. -/
def resolveType (intern : Nat → CheckM TypeIdx) (module : Nat) (self : Option TypeIdx) :
    Ty → CheckM TypeIdx
  | .primitive span kind =>
    recorded module (.primitive span kind) self (primitiveType p kind span)
  | .unit span => recorded module (.unit span) self (return primitiveIdx .void)
  | .never span => recorded module (.never span) self (build StorageBuilder.neverType)
  | .str span => recorded module (.str span) self (return primitiveIdx .str)
  | .tuple span elements => recorded module (.tuple span elements) self do
    let elements ← resolveTypes intern module self elements
    let range ← build (StorageBuilder.copySeq elements)
    build (StorageBuilder.tupleType range)
  | .ref span isMut inner => recorded module (.ref span isMut inner) self do
    let pointee ← resolveType intern module self inner
    build (StorageBuilder.referenceType pointee isMut)
  | .path span path args => recorded module (.path span path args) self <|
    if singleSegment path = some "Self" then selfType span args self
    else
      match blessedPath path with
      | some isResult =>
        if args.length ≠ blessedArity isResult then do
          report kAnalyzerArityMismatch span (arityMessage isResult)
          errorType
        else do
          let args ← resolveTypes intern module self args
          internBlessed p isResult args
      | none =>
        if args.isEmpty then nominalType p intern module span path
        else do
          report kAnalyzerGenericArguments span "generic arguments are not supported"
          errorType

/-- The types of a list, one after the other. -/
def resolveTypes (intern : Nat → CheckM TypeIdx) (module : Nat) (self : Option TypeIdx) :
    List Ty → CheckM (List TypeIdx)
  | [] => return []
  | type :: rest => do
    let idx ← resolveType intern module self type
    let idxs ← resolveTypes intern module self rest
    return idx :: idxs

end

/-! ## Nominals -/

/-- An entry, by its index in place of the pointer. -/
def nominal (e : Nat) : CheckM NominalEntry := fun st => do
  let entry ← st.table.nominals[e]?
  some (entry, st)

def updateNominal (e : Nat) (f : NominalEntry → NominalEntry) : CheckM Unit :=
  modifyTable fun table => { table with nominals := table.nominals.modify e f }

def reserveNominal : NominalItem → Build TypeIdx
  | .struct decl => StorageBuilder.reserveStruct (p.pool decl.name.name)
  | .enum decl => StorageBuilder.reserveEnum (p.pool decl.name.name)

def fillNominal (type : TypeIdx) (members : IdxRange) : NominalItem → Build Unit
  | .struct _ => StorageBuilder.fillStruct type members
  | .enum _ => StorageBuilder.fillEnum type members

/-- The variants of an enum, each with copies of its resolved payload. -/
def fillVariants : List EnumVariant → List (List TypeIdx) → SeqBuilder → CheckM SeqBuilder
  | variant :: variants, payload :: payloads, seq => do
    let fields ← build (StorageBuilder.copySeq payload)
    let idx ← build (StorageBuilder.enumVariant (p.pool variant.name.name) fields)
    let seq ← seq.push idx
    fillVariants variants payloads seq
  | _, _, seq => return seq

/-- The fields of a struct or the variants of an enum. Payloads resolve first, so that the variants
follow one another. -/
def members (intern : Nat → CheckM TypeIdx) (module : Nat) : NominalItem → CheckM IdxRange
  | .struct decl => do
    let fields ← resolveTypes p intern module none (decl.fields.map (·.type))
    build (StorageBuilder.copySeq fields)
  | .enum decl => do
    let payloads ← decl.variants.mapM fun variant =>
      resolveTypes p intern module none variant.fields
    let variants ← fillVariants p decl.variants payloads SeqBuilder.empty
    return variants.finish

/-- The body of `intern_nominal` for an entry that is met for the first time. -/
def internFresh (intern : Nat → CheckM TypeIdx) (e : Nat) (entry : NominalEntry) :
    CheckM TypeIdx := do
  let type ← build (reserveNominal p entry.item)
  updateNominal e fun entry => { entry with type, started := true }
  let range ← members p intern entry.module entry.item
  build (fillNominal type range entry.item)
  updateNominal e fun entry => { entry with complete := true }
  return type

/-- `intern_nominal`. A nominal that is met again while it is being filled is its reserved index. -/
def internNominal : Nat → Nat → CheckM TypeIdx
  | fuel, e => do
    let entry ← nominal e
    if entry.complete || entry.started then return entry.type
    else
      match fuel with
      | 0 => fun _ => none
      | fuel + 1 => internFresh p (internNominal fuel) e entry

/-- `intern_nominal` with more depth than the nominals can use up. -/
def intern (e : Nat) : CheckM TypeIdx := do
  let st ← get
  internNominal p st.table.nominals.length e

/-! ## Items -/

/-- One item of `register_nominals`. -/
def registerItem (module : Nat) (item : Item) : CheckM Unit :=
  match asNominal item with
  | none => return
  | some item => do
    let st ← get
    if item.name = "Result" ∨ item.name = "Option" then
      report kAnalyzerReservedName item.span ("'" ++ item.name ++ "' is reserved for the blessed type")
    else if (findNominal st.table.nominals module item.name).isSome then
      report kAnalyzerDuplicateDefinition item.span ("duplicate definition of '" ++ item.name ++ "'")
    else
      modifyTable fun table =>
        { table with nominals := table.nominals ++ [⟨module, item, 0, false, false⟩] }

def registerNominals : CheckM Unit :=
  (List.range p.tree.modules.length).forM fun module =>
    (p.tree.node module).items.forM (registerItem module)

/-- What a parameter of the type makes of a function of an `impl` block. -/
def classifyReceiver (first self : TypeIdx) : CheckM ReceiverKind := fun st => do
  if first = self then return (.byValue, st)
  let node ← st.table.storage.types[first]?
  if node.tag = .ref ∨ node.tag = .mutRef then
    let row ← st.table.storage.refTypes[node.data]?
    if row.pointee = self then
      return (if node.tag = .ref then .shared else .exclusive, st)
    else return (.none, st)
  else return (.none, st)

/-- A missing return type means `()`. -/
def resolveReturn (module : Nat) (self : Option TypeIdx) : Option Ty → CheckM TypeIdx
  | none => return primitiveIdx .void
  | some type => resolveType p (intern p) module self type

/-- The parameters and the return type of a function. -/
def resolveSig (module : Nat) (self : Option TypeIdx) (fn : FnItem) : CheckM FnSig := do
  let params ← resolveTypes p (intern p) module self (fn.params.map (·.type))
  let ret ← resolveReturn p module self fn.returnType
  return ⟨fn.name.name, params, ret⟩

/-- The type of an `impl` block, when it is a nominal. -/
def implSelf (module : Nat) (impl : ImplItem) : CheckM (Option TypeIdx) :=
  match impl.type with
  | .path span path args =>
    if !args.isEmpty then do
      report kAnalyzerGenericArguments span "generic impl blocks are not supported"
      return none
    else do
      match ← resolveTypePath p module path with
      | none => return none
      | some (targetModule, targetName) =>
        let st ← get
        match findNominal st.table.nominals targetModule targetName with
        | some e => return some (← intern p e)
        | none =>
          report kAnalyzerUnknownType span "inherent impl requires a nominal type"
          return none
  | type => do
    report kAnalyzerUnknownType type.span "inherent impl requires a nominal type"
    return none

/-- A function without parameters, or without a self type, has no receiver. -/
def receiverOf (self : Option TypeIdx) (params : List TypeIdx) : CheckM ReceiverKind :=
  match self, params with
  | some self, first :: _ => classifyReceiver first self
  | _, _ => return .none

def selfOrError : Option TypeIdx → CheckM TypeIdx
  | some self => return self
  | none => errorType

/-- One function of an `impl` block. -/
def processMethod (module : Nat) (self : Option TypeIdx) (method : FnItem) : CheckM Unit := do
  let sig ← resolveSig p module self method
  modifyModule module fun checked => { checked with functions := checked.functions ++ [sig] }
  let receiver ← receiverOf self sig.params
  let selfType ← selfOrError self
  modifyModule module fun checked =>
    { checked with methods := checked.methods ++ [⟨selfType, sig, receiver⟩] }

/-- A declared nominal, interned when it was registered. -/
def processNominal (module : Nat) (item : NominalItem) : CheckM Unit := do
  let st ← get
  match findNominal st.table.nominals module item.name with
  | none => return
  | some e =>
    let resolved ← intern p e
    modifyModule module fun checked =>
      { checked with
        types := checked.types ++ [(item.name, resolved)]
        structs := checked.structs ++ item.structInfo resolved }

/-- A `static` or `const`. -/
def processStatic (module : Nat) (decl : StaticItem) : CheckM Unit := do
  let type ← resolveType p (intern p) module none decl.type
  modifyModule module fun checked =>
    { checked with statics := checked.statics ++ [(decl.name.name, type)] }

/-- One item of `process_module`. -/
def processItem (module : Nat) : Item → CheckM Unit
  | .struct decl => processNominal p module (.struct decl)
  | .enum decl => processNominal p module (.enum decl)
  | .fn fn => do
    let sig ← resolveSig p module none fn
    modifyModule module fun checked => { checked with functions := checked.functions ++ [sig] }
  | .static decl => processStatic p module decl
  | .const decl => processStatic p module decl
  | .impl impl => do
    -- the placeholder of the self type, also where it is replaced
    let _ ← errorType
    let self ← implSelf p module impl
    impl.methods.forM (processMethod p module self)
  | .mod .. | .use _ => return

def processModule (module : Nat) : CheckM Unit :=
  (p.tree.node module).items.forM (processItem p module)

/-! ## Bodies -/

/-- What checking a body does to the type table and the bag. A tuple expression copies the types of
its elements into a sequence, a tuple pattern without elements asks for the empty tuple. -/
inductive BodyCall where
  | resolveType (module : Nat) (type : Ty) (self : Option TypeIdx)
  | internNominal (e : Nat)
  | tuple (elements : List TypeIdx)
  | reference (pointee : TypeIdx) (isMut : Bool)
  | never
  | error
  | report (code : Nat) (span : Span) (message : String)

def BodyCall.fits (table : Table) : BodyCall → Bool
  | .resolveType _ _ self => self.all table.storage.usable
  | .internNominal e => e < table.nominals.length
  | .tuple elements => elements.all table.storage.usable
  | .reference pointee _ => table.storage.usable pointee
  | .never | .error => true
  | .report code _ _ => code ≠ kAnalyzerRecursiveType

/-- One call. A call that does not fit the table is none that a body makes, and the error code of
recursive types is not used there. -/
def bodyCall (call : BodyCall) : CheckM Unit := do
  let st ← get
  if call.fits st.table then
    match call with
    | .resolveType module type self => do
      let _ ← resolveType p (intern p) module self type
    | .internNominal e => do
      let _ ← intern p e
    | .tuple elements => do
      let range ← build (StorageBuilder.copySeq elements)
      let _ ← build (StorageBuilder.tupleType range)
    | .reference pointee isMut => do
      let _ ← build (StorageBuilder.referenceType pointee isMut)
    | .never => do
      let _ ← build StorageBuilder.neverType
    | .error => do
      let _ ← errorType
    | .report code span message => report code span message
  else return

/-! ## Recursive types -/

/-- The loop of `has_value_cycle`'s recursion, with the path that leads to the node. -/
def hasValueCycle (s : Storage) : Nat → List TypeIdx → TypeIdx → Option Bool
  | 0, _, _ => none
  | fuel + 1, stack, root =>
    if root ∈ stack then some true
    else do
      let parts ← s.valueParts root
      parts.anyM (hasValueCycle s fuel (stack ++ [root]))

/-- One entry of `validate_cycles`. -/
def validateEntry (entry : NominalEntry) : CheckM Unit := do
  let st ← get
  if entry.complete then
    let storage := st.table.storage
    let cycle ← hasValueCycle storage (storage.types.length + 1) [] entry.type
    if cycle then
      report kAnalyzerRecursiveType entry.item.span
        ("recursive type '" ++ entry.item.name ++ "' without indirection")
    else return
  else return

def validateCycles : CheckM Unit := do
  let st ← get
  st.table.nominals.forM validateEntry

/-- `check_package` up to the search for recursive types, for bodies whose checking makes the
calls. -/
def checkItems (calls : List BodyCall) : CheckM Unit := do
  registerNominals p
  (List.range p.tree.modules.length).forM (processModule p)
  calls.forM (bodyCall p)

def checkPackage (calls : List BodyCall) : CheckM Unit := do
  checkItems p calls
  validateCycles

end Alcy.Analyzer.Types
