import Alcy.Analyzer.Scopes

/-! # The value namespace

What a path means where a value, a variant or a struct is expected: locals before everything, then
the statics and functions of a module or of its imports, the variants of its enums, and the
constructors of `Result` and `Option`.
-/
namespace Alcy.Analyzer.Bodies
open Alcy.Ast Alcy.Diag Alcy.Ir Alcy.Analyzer.Types
open Alcy.Analyzer.Resolve (Import Namespace)

/-! ## Lookups -/

/-- An entry of a module's list, with its place there. -/
structure Found (α : Type) where
  module : Nat
  index : Nat
  entry : α

/-- The first entry of a list that has the name. -/
def firstNamed {α : Type} (nameOf : α → String) (module : Nat) (entries : List α) (name : String) :
    Option (Found α) :=
  (entries.zipIdx.find? fun e => nameOf e.1 = name).map fun e => ⟨module, e.2, e.1⟩

/-- The loops of `lookup_static` and `lookup_function`: the module's own entries, then those that
its imports lead to. -/
def lookupThrough {α : Type} (nameOf : α → String) (entries : Nat → List α)
    (imports : List Import) (module : Nat) (name : String) : Option (Found α) :=
  match firstNamed nameOf module (entries module) name with
  | some found => some found
  | none => imports.findSome? fun imp =>
    if imp.ns = .value ∧ imp.name = name then
      firstNamed nameOf imp.targetModule (entries imp.targetModule) imp.member
    else none

/-- A variant of a registered enum. -/
structure VariantMatch where
  enom : Nat
  variant : Nat
  deriving DecidableEq

/-- The variants of that name; none of a struct. -/
def variantsNamed (item : NominalItem) (name : String) : List Nat :=
  match item with
  | .struct _ => []
  | .enum decl => (decl.variants.zipIdx.filter fun v => v.1.name.name = name).map (·.2)

/-- `find_variant_in` -/
def findVariantIn (nominals : List NominalEntry) (module : Nat) (name : String) :
    List VariantMatch :=
  nominals.zipIdx.flatMap fun e =>
    if e.1.module = module then (variantsNamed e.1.item name).map (⟨e.2, ·⟩) else []

/-- The variants of the enums that a module imports. -/
def importedVariants (nominals : List NominalEntry) (imports : List Import) (name : String) :
    List VariantMatch :=
  imports.flatMap fun imp =>
    if imp.ns = .type then
      match findNominal nominals imp.targetModule imp.member with
      | none => []
      | some e => ((nominals[e]?).elim [] fun entry => variantsNamed entry.item name).map (⟨e, ·⟩)
    else []

variable (p : Package)

def lookupStatic (modules : Nat → CheckedModule) (module : Nat) (name : String) :
    Option (Found (String × TypeIdx)) :=
  lookupThrough (·.1) (fun m => (modules m).statics) (p.imports module) module name

def lookupFunction (modules : Nat → CheckedModule) (module : Nat) (name : String) :
    Option (Found FnSig) :=
  lookupThrough (·.name) (fun m => (modules m).functions) (p.imports module) module name

/-- `find_variant`; only an ambiguity is reported here. -/
def findVariant (module : Nat) (name : String) (span : Span) : BodyM (Option VariantMatch) := do
  let st ← get
  let nominals := st.check.table.nominals
  match findVariantIn nominals module name ++
      importedVariants nominals (p.imports module) name with
  | [] => return none
  | [found] => return some found
  | _ =>
    report kAnalyzerUnknownValue span ("ambiguous variant '" ++ name ++ "'")
    return none

def findNominalInScope (nominals : List NominalEntry) (module : Nat) (name : String) :
    Option Nat :=
  match findNominal nominals module name with
  | some e => some e
  | none => (p.imports module).findSome? fun imp =>
    if imp.ns = .type ∧ imp.name = name then findNominal nominals imp.targetModule imp.member
    else none

/-- `lookup_method`: the first function of that name for the type, over all modules. -/
def lookupMethod (modules : Nat → CheckedModule) (self : TypeIdx) (name : String) :
    Option MethodInfo :=
  (List.range p.tree.modules.length).findSome? fun module =>
    (modules module).methods.find? fun method => method.selfType = self && method.sig.name = name

/-! ## Paths -/

/-- `PathValue`: what each kind brings with it. -/
inductive PathValue where
  | localVar (type : TypeIdx)
  | static (type : TypeIdx)
  | function (found : Found FnSig)
  | assocFunction (method : MethodInfo)
  | unitVariant (found : VariantMatch) (type : TypeIdx)
  | tupleVariant (found : VariantMatch) (type : TypeIdx)
  | blessedCtor (blessed : Option BlessedEntry) (first : Bool) (name : String)
  | type

/-- `resolve_blessed_ctor`: the instantiation is the first one of the kind. -/
def resolveBlessedCtor (table : Table) (name : String) : Option PathValue :=
  if name = "Ok" ∨ name = "Err" ∨ name = "Some" ∨ name = "None" then
    (table.blessed.find? fun entry => entry.isResult = (name = "Ok" || name = "Err")).map fun entry =>
      .blessedCtor (some entry) (name = "Ok" || name = "Some") name
  else none

/-- The static or function that a name means in a module. -/
def lookupValue (modules : Nat → CheckedModule) (module : Nat) (name : String) : Option PathValue :=
  match lookupStatic p modules module name with
  | some found => some (.static found.entry.2)
  | none => (lookupFunction p modules module name).map .function

/-- The declaration of a variant. -/
def variantDecl (found : VariantMatch) : BodyM EnumVariant :=
  check fun st => do
    let entry ← st.table.nominals[found.enom]?
    match entry.item with
    | .struct _ => none
    | .enum decl => (decl.variants[found.variant]?).map fun variant => (variant, st)

/-- A variant as a value. -/
def variantValue (found : VariantMatch) : BodyM PathValue := do
  let type ← check (intern p found.enom)
  let variant ← variantDecl found
  if variant.fields.isEmpty then return .unitVariant found type
  else return .tupleVariant found type

def unresolved {α : Type} (span : Span) (message : String) : BodyM (Option α) := do
  report kAnalyzerUnknownValue span message
  return none

def unresolvedValue (span : Span) (name : String) : BodyM (Option PathValue) :=
  unresolved span ("unresolved value '" ++ name ++ "'")

/-- `walk_module_prefix` for value paths. -/
def walkPrefix (module : Nat) (path : Path) : BodyM (Option Nat) :=
  match walkModulePrefix p.tree module path "value" with
  | .error message => do
    report kAnalyzerUnknownType path.span message
    return none
  | .ok target => return some target

/-- Whether the first of two segments is a module. -/
def headIsModule (module : Nat) (head : String) : Bool :=
  head = "package" || head = "self" || head = "super" ||
    (findChildModule p.tree module head).isSome

/-- The end of `resolve_value_path` for one segment. -/
def resolveOther (module : Nat) (path : Path) (name : String) : BodyM (Option PathValue) := do
  match ← findVariant p module name path.span with
  | some found => return some (← variantValue p found)
  | none =>
    let st ← get
    match resolveBlessedCtor st.check.table name with
    | some value => return some value
    | none =>
      if (findNominalInScope p st.check.table.nominals module name).isSome then return some .type
      else unresolvedValue path.span name

/-- `resolve_value_path` for one segment. -/
def resolveName (module : Nat) (path : Path) (name : String) : BodyM (Option PathValue) := do
  let st ← get
  match st.context.lookupLocal name with
  | some entry => return some (.localVar entry.type)
  | none =>
    match lookupValue p st.check.modules module name with
    | some value => return some value
    | none => resolveOther p module path name

/-- A value of the module that a path leads to; `variants` says whether its variants count. -/
def resolveInModule (variants : Bool) (module : Nat) (path : Path) (member : String) :
    BodyM (Option PathValue) := do
  match ← walkPrefix p module path with
  | none => return none
  | some target =>
    let st ← get
    match lookupValue p st.check.modules target member with
    | some value => return some value
    | none =>
      match if variants then findVariantIn st.check.table.nominals target member else [] with
      | [found] => return some (← variantValue p found)
      | _ => unresolvedValue path.span member

/-- The variant that a nominal has under the name. -/
def memberVariant (nominals : List NominalEntry) (nominal : Option Nat) (member : String) :
    Option VariantMatch := do
  let e ← nominal
  let entry ← nominals[e]?
  let variant ← (variantsNamed entry.item member).head?
  return ⟨e, variant⟩

/-- The associated function that a nominal has under the name. -/
def assocFunction (nominal : Option Nat) (member : String) : BodyM (Option MethodInfo) :=
  match nominal with
  | none => return none
  | some e => do
    let self ← check (intern p e)
    let st ← get
    return (lookupMethod p st.check.modules self member).filter fun method =>
      method.receiver = .none

/-- The blessed constructor of `Result::name` and `Option::name`. -/
def qualifiedCtor (table : Table) (head member : String) : Option PathValue :=
  if head = "Result" ∨ head = "Option" then resolveBlessedCtor table member else none

/-- `resolve_value_path` for `Enum::Variant` and `Type::assoc`. -/
def resolveMember (module : Nat) (path : Path) (head member : String) :
    BodyM (Option PathValue) := do
  let st ← get
  let nominal := findNominalInScope p st.check.table.nominals module head
  match memberVariant st.check.table.nominals nominal member with
  | some found => return some (← variantValue p found)
  | none =>
    match ← assocFunction p nominal member with
    | some method => return some (.assocFunction method)
    | none =>
      let st ← get
      match qualifiedCtor st.check.table head member with
      | some value => return some value
      | none => unresolved path.span ("unresolved value '" ++ head ++ "::" ++ member ++ "'")

/-- `resolve_value_path` -/
def resolveValuePath (module : Nat) (path : Path) : BodyM (Option PathValue) :=
  match path.segments.map (·.name) with
  | [] => return none
  | [name] => resolveName p module path name
  | [head, member] =>
    if headIsModule p module head then resolveInModule p true module path member
    else resolveMember p module path head member
  | segments => resolveInModule p false module path (segments.getLastD "")

/-- A constructor of `Result` or `Option` in a pattern; its instantiation is open. -/
def patternCtor (name : String) : Option PathValue :=
  if name = "Ok" ∨ name = "Err" ∨ name = "Some" ∨ name = "None" then
    some (.blessedCtor none (name = "Ok" || name = "Some") name)
  else none

/-- A constructor after `Result::` or `Option::` in a pattern. -/
def qualifiedPatternCtor (head member : String) : Option PathValue :=
  if (head = "Result" ∧ (member = "Ok" ∨ member = "Err")) ∨
      (head = "Option" ∧ (member = "Some" ∨ member = "None")) then
    some (.blessedCtor none (member = "Ok" || member = "Some") member)
  else none

/-- A variant in a pattern: its kind does not depend on the payload. -/
def patternVariant (found : VariantMatch) : BodyM (Option PathValue) := do
  let type ← check (intern p found.enom)
  return some (.tupleVariant found type)

/-- `resolve_variant_path` -/
def resolveVariantPath (module : Nat) (path : Path) : BodyM (Option PathValue) :=
  match path.segments.map (·.name) with
  | [name] => do
    match ← findVariant p module name path.span with
    | some found => patternVariant p found
    | none => return patternCtor name
  | [head, member] =>
    if headIsModule p module head then do
      match ← walkPrefix p module path with
      | none => return none
      | some target =>
        let st ← get
        match findVariantIn st.check.table.nominals target member with
        | [found] => patternVariant p found
        | _ => return none
    else do
      let st ← get
      let nominal := findNominalInScope p st.check.table.nominals module head
      match memberVariant st.check.table.nominals nominal member with
      | some found => patternVariant p found
      | none => return qualifiedPatternCtor head member
  | _ => return none

/-- The payload of a blessed constructor for an instantiation. -/
def blessedPayload (entry : BlessedEntry) (first : Bool) : Option (List TypeIdx) :=
  if first then (entry.args[0]?).map ([·])
  else if entry.isResult then (entry.args[1]?).map ([·])
  else some []

/-- The types of a declared variant's payload. -/
def declaredPayload (found : VariantMatch) : BodyM (List TypeIdx) := do
  let entry ← check (nominal found.enom)
  let variant ← variantDecl found
  check (resolveTypes p (intern p) entry.module none variant.fields)

/-- `variant_payloads` -/
def variantPayloads (resolved : PathValue) (enumType : TypeIdx) (span : Span) :
    BodyM (List TypeIdx) := do
  if ← isError enumType then return []
  else
    match resolved with
    | .unitVariant found _ | .tupleVariant found _ => declaredPayload p found
    | .blessedCtor _ first _ => do
      match ← blessedFind enumType with
      | none =>
        report kAnalyzerTypeMismatch span "blessed constructor on a non-blessed type"
        return []
      | some entry => read fun _ => blessedPayload entry first
    | _ => read fun _ => none

/-- The nominal, when it is a struct. -/
def structEntry (nominals : List NominalEntry) (nominal : Option Nat) : Option Nat :=
  nominal.filter fun e => (nominals[e]?).any fun entry => entry.item.tag = .struct

def unresolvedStruct (span : Span) (name : String) : BodyM (Option Nat) :=
  unresolved span ("unresolved struct '" ++ name ++ "'")

/-- `resolve_struct_path` -/
def resolveStructPath (module : Nat) (path : Path) : BodyM (Option Nat) :=
  match path.segments.map (·.name) with
  | [] => return none
  | [name] => do
    let st ← get
    let nominals := st.check.table.nominals
    match structEntry nominals (findNominalInScope p nominals module name) with
    | some e => return some e
    | none => unresolvedStruct path.span name
  | segments => do
    match ← walkPrefix p module path with
    | none => return none
    | some target =>
      let st ← get
      let nominals := st.check.table.nominals
      match structEntry nominals (findNominal nominals target (segments.getLastD "")) with
      | some e => return some e
      | none => unresolvedStruct path.span (segments.getLastD "")

/-- The fields of a struct's declaration. -/
def structDecl (e : Nat) : BodyM StructItem :=
  check fun st => do
    let entry ← st.table.nominals[e]?
    match entry.item with
    | .struct decl => some (decl, st)
    | .enum _ => none

end Alcy.Analyzer.Bodies
