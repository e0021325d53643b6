import Alcy.Analyzer.Names

/-! # Binding patterns

`bind_pattern` of `src/analyzer/types.cc` declares the locals of a pattern and says whether the
pattern is refutable. After an error every name below the pattern becomes a local without a type.
-/
namespace Alcy.Analyzer.Bodies
open Alcy.Ast Alcy.Diag Alcy.Ir Alcy.Analyzer.Types

/-! ## Names -/

mutual

/-- `collect_pattern_idents`, in the order in which the source pushes them. -/
def collectPatternIdents : Pattern → List String
  | .wildcard _ | .literal _ _ => []
  | .ident _ name | .mutIdent _ name => [name.name]
  | .tuple _ _ elements => collectAllIdents elements
  | .struct _ _ fields => collectFieldIdents fields
  | .ref _ _ inner => collectPatternIdents inner
  | .or _ alternatives => collectAllIdents alternatives

def collectAllIdents : List Pattern → List String
  | [] => []
  | pattern :: rest => collectPatternIdents pattern ++ collectAllIdents rest

def collectFieldIdents : List (Ident × Pattern) → List String
  | [] => []
  | (_, pattern) :: rest => collectPatternIdents pattern ++ collectFieldIdents rest

end

/-- `bind_error_idents` -/
def bindErrorIdents (pattern : Pattern) : BodyM Unit :=
  (collectPatternIdents pattern).forM fun name => do
    let type ← errorType
    declare ⟨name, type, false⟩

/-! ## Or-patterns -/

/-- The comparison after a later alternative: its locals begin at `mark`, and those it is compared
with go from `base` to `mark`. -/
def compareNames (base mark : Nat) (span : Span) : BodyM Unit := do
  let scope ← innermost
  (scope.drop mark).forM fun entry =>
    if ((scope.take mark).drop base).any fun other => other.name = entry.name then return
    else report kAnalyzerInvalidOperation span "or-pattern alternatives must bind the same names"

/-- Erases the locals from `mark` on. -/
def eraseFrom (mark : Nat) : BodyM Unit := do
  let scope ← innermost
  modifyContext fun context => context.withInnermost (scope.take mark)

/-! ## Patterns -/

variable (p : Package)

/-- The payload types of a variant, unless their number is reported. -/
def fittingPayload (span : Span) (arity : Nat) (type : TypeIdx) (resolved : PathValue) :
    BodyM (Option (List TypeIdx)) := do
  let payloads ← variantPayloads p resolved type span
  if payloads.length = arity then return some payloads
  else
    report kAnalyzerArityError span ("variant expects " ++ toString payloads.length ++
      " fields, pattern has " ++ toString arity)
    return none

/-- The payload types of a variant pattern, unless an error is reported. -/
def variantPattern (module : Nat) (span : Span) (path : Path) (arity : Nat) (type : TypeIdx) :
    BodyM (Option (List TypeIdx)) := do
  match ← resolveVariantPath p module path with
  | none => return none
  | some (.tupleVariant found enumType) =>
    let _ ← unify type enumType span "tuple variant pattern"
    fittingPayload p span arity type (.tupleVariant found enumType)
  | some (.blessedCtor blessed first name) =>
    fittingPayload p span arity type (.blessedCtor blessed first name)
  | some _ =>
    report kAnalyzerTypeMismatch span "not a tuple variant"
    return none

/-- The element types of a tuple pattern, unless an error is reported. -/
def tuplePattern (span : Span) (arity : Nat) (type : TypeIdx) : BodyM (Option (List TypeIdx)) := do
  if (← tagOf type) ≠ .tuple then
    let empty ← check (build (StorageBuilder.tupleType ⟨0, 0⟩))
    let _ ← unify type empty span "tuple pattern"
    return none
  else
    let elements ← tupleElements type
    if elements.size = arity then return some elements.toList
    else
      report kAnalyzerArityError span ("tuple pattern has " ++ toString arity ++
        " elements, type has " ++ toString elements.size)
      return none

/-- The declaration of a struct pattern's struct with its field types. -/
def structPattern (module : Nat) (span : Span) (path : Path) (type : TypeIdx) :
    BodyM (Option (StructItem × IdxRange)) := do
  match ← resolveStructPath p module path with
  | none => return none
  | some e =>
    let self ← check (intern p e)
    let _ ← unify type self span "struct pattern"
    let decl ← structDecl e
    let fields ← structFields (← check (nominal e)).type
    return some (decl, fields)

/-- The place of a field in a declaration. -/
def fieldIndex (decl : StructItem) (name : String) : Option Nat :=
  decl.fields.findIdx? fun field => field.name.name = name

def unknownField (name : Ident) : BodyM Unit :=
  report kAnalyzerUnknownValue name.span ("unknown field '" ++ name.name ++ "'")

def refTag (isMut : Bool) : TypeTag := if isMut then .mutRef else .ref

/-- What a reference pattern goes on with. -/
def refPattern (span : Span) (isMut : Bool) (type : TypeIdx) : BodyM (Option TypeIdx) := do
  if (← tagOf type) ≠ refTag isMut then
    report kAnalyzerTypeMismatch span "reference pattern on a non-reference type"
    return none
  else return some (← pointeeOf type)

mutual

/-- `bind_pattern`: whether the pattern is refutable. -/
def bindPattern (module : Nat) : Pattern → TypeIdx → BodyM Bool
  | .wildcard _, _ => return false
  | .ident _ name, type => do
    declare ⟨name.name, type, false⟩
    return false
  | .mutIdent _ name, type => do
    declare ⟨name.name, type, true⟩
    return false
  | .literal _ value, type => do
    let _ ← checkLiteral p value (some type)
    return true
  | .tuple span (some path) elements, type => do
    match ← variantPattern p module span path elements.length type with
    | none =>
      bindErrorIdents (.tuple span (some path) elements)
      return true
    | some payloads => bindPayload module elements payloads true
  | .tuple span none elements, type => do
    match ← tuplePattern span elements.length type with
    | none =>
      bindErrorIdents (.tuple span none elements)
      return false
    | some types => bindElements module elements types false
  | .struct span path fields, type => do
    match ← structPattern p module span path type with
    | none =>
      bindErrorIdents (.struct span path fields)
      return false
    | some (decl, types) => bindFields module decl types fields false
  | .ref span isMut inner, type => do
    match ← refPattern span isMut type with
    | none =>
      bindErrorIdents (.ref span isMut inner)
      return false
    | some pointee => bindPattern module inner pointee
  | .or _ [], _ => return false
  | .or _ (first :: rest), type => do
    let refutable ← bindPattern module first type
    let base := (← innermost).length
    bindAlternatives module base type rest refutable

/-- The payload of a variant: refutable as long as every part of it is. -/
def bindPayload (module : Nat) : List Pattern → List TypeIdx → Bool → BodyM Bool
  | pattern :: rest, type :: types, refutable => do
    let part ← bindPattern module pattern type
    bindPayload module rest types (part && refutable)
  | _, _, refutable => return refutable

/-- The elements of a tuple: refutable as soon as one of them is. -/
def bindElements (module : Nat) : List Pattern → List TypeIdx → Bool → BodyM Bool
  | pattern :: rest, type :: types, refutable => do
    let part ← bindPattern module pattern type
    bindElements module rest types (part || refutable)
  | _, _, refutable => return refutable

def bindFields (module : Nat) (decl : StructItem) (types : IdxRange) :
    List (Ident × Pattern) → Bool → BodyM Bool
  | [], refutable => return refutable
  | (name, pattern) :: rest, refutable =>
    match fieldIndex decl name.name with
    | none => do
      unknownField name
      bindErrorIdents pattern
      bindFields module decl types rest refutable
    | some i => do
      let part ← bindPattern module pattern (← slot types i)
      bindFields module decl types rest (part || refutable)

/-- The later alternatives; the source takes `base` when the first one has been bound. -/
def bindAlternatives (module base : Nat) (type : TypeIdx) : List Pattern → Bool → BodyM Bool
  | [], refutable => return refutable
  | pattern :: rest, refutable => do
    let mark := (← innermost).length
    let part ← bindPattern module pattern type
    compareNames base mark pattern.span
    eraseFrom mark
    bindAlternatives module base type rest (part || refutable)

end

end Alcy.Analyzer.Bodies
