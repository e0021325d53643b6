import Alcy.Analyzer.Patterns

/-! # Exhaustiveness

`check_exhaustive` of `src/analyzer/types.cc`: booleans and the variants of a declared enum by
enumeration, everything else by a wildcard or a constructor pattern.
-/
namespace Alcy.Analyzer.Bodies
open Alcy.Ast Alcy.Diag Alcy.Ir Alcy.Analyzer.Types

/-! ## What an arm covers -/

mutual

/-- `pattern_is_wildcard`: a plain name counts, whatever it stands for. -/
def patternIsWildcard : Pattern → Bool
  | .wildcard _ | .ident _ _ | .mutIdent _ _ => true
  | .or _ alternatives => anyIsWildcard alternatives
  | _ => false

def anyIsWildcard : List Pattern → Bool
  | [] => false
  | pattern :: rest => patternIsWildcard pattern || anyIsWildcard rest

end

mutual

/-- `collect_bool_literals`: each boolean literal as whether it is `true`. -/
def collectBoolLiterals : Pattern → List Bool
  | .literal _ value => if value.kind = .bool then [value.spelling = "true"] else []
  | .or _ alternatives => collectAllBools alternatives
  | _ => []

def collectAllBools : List Pattern → List Bool
  | [] => []
  | pattern :: rest => collectBoolLiterals pattern ++ collectAllBools rest

end

/-- Marks the first variant that fits. -/
def markFirst (decl : EnumItem) (covered : List Bool) (fits : EnumVariant → Bool) : List Bool :=
  match (decl.variants.take covered.length).findIdx? fits with
  | none => covered
  | some i => covered.set i true

mutual

/-- `mark_variant_covered`: by the last segment of the path, whatever the payload patterns are. -/
def markVariantCovered (decl : EnumItem) : Pattern → List Bool → List Bool
  | .ident _ name, covered =>
    markFirst decl covered fun v => v.name.name = name.name && v.fields.isEmpty
  | .tuple _ (some path) _, covered =>
    match path.segments.getLast? with
    | none => covered
    | some last => markFirst decl covered fun v => v.name.name = last.name
  | .or _ alternatives, covered => markAllCovered decl alternatives covered
  | _, covered => covered

def markAllCovered (decl : EnumItem) : List Pattern → List Bool → List Bool
  | [], covered => covered
  | pattern :: rest, covered => markAllCovered decl rest (markVariantCovered decl pattern covered)

end

/-! ## The check -/

/-- The declaration of an enum, found by its index. -/
def enumDecl (nominals : List NominalEntry) (scrutinee : TypeIdx) : Option EnumItem :=
  nominals.findSome? fun entry =>
    if entry.complete && entry.type = scrutinee then
      match entry.item with
      | .enum decl => some decl
      | .struct _ => none
    else none

def nonExhaustive (span : Span) (message : String) : BodyM Unit :=
  report kAnalyzerNonExhaustiveMatch span ("non-exhaustive " ++ message)

/-- The variants of a declared enum. -/
def checkVariants (decl : EnumItem) (count : Nat) (patterns : List Pattern) (span : Span) :
    BodyM Unit :=
  match (markAllCovered decl patterns (List.replicate count false)).findIdx? (· = false) with
  | none => return
  | some i => do
    let variant ← read fun _ => decl.variants[i]?
    nonExhaustive span ("match: '" ++ variant.name.name ++ "' not covered")

/-- An enum without a declaration: the blessed ones, and copies in the slots of other types. -/
def checkUndeclared (scrutinee : TypeIdx) (span : Span) : BodyM Unit := do
  match ← blessedFind scrutinee with
  | none => return
  | some entry =>
    nonExhaustive span ("match over '" ++ (if entry.isResult then "Result" else "Option") ++ "'")

def checkEnum (scrutinee : TypeIdx) (patterns : List Pattern) (span : Span) : BodyM Unit := do
  let variants ← enumVariants scrutinee
  let st ← get
  match enumDecl st.check.table.nominals scrutinee with
  | some decl => checkVariants decl variants.size patterns span
  | none => checkUndeclared scrutinee span

def checkBools (covered : List Bool) (span : Span) : BodyM Unit :=
  if !covered.contains true then nonExhaustive span "match: missing 'true'"
  else if !covered.contains false then nonExhaustive span "match: missing 'false'"
  else return

def isTuplePattern : Pattern → Bool
  | .tuple _ none _ => true
  | _ => false

def isStructPattern : Pattern → Bool
  | .struct _ _ _ => true
  | _ => false

/-- `check_exhaustive` -/
def checkExhaustive (scrutinee : TypeIdx) (patterns : List Pattern) (span : Span) :
    BodyM Unit := do
  if patterns.any patternIsWildcard then return
  else
    let tag ← tagOf scrutinee
    if tag = .i1 then checkBools (patterns.flatMap collectBoolLiterals) span
    else if tag = .enum then checkEnum scrutinee patterns span
    else if isIntegerTag tag then nonExhaustive span "integer match: add a wildcard arm"
    else if tag = .tuple then
      if patterns.any isTuplePattern then return
      else nonExhaustive span "tuple match: add a wildcard arm"
    else if tag = .struct then
      if patterns.any isStructPattern then return
      else nonExhaustive span "struct match: add a wildcard arm"
    else nonExhaustive span "match: add a wildcard arm"

end Alcy.Analyzer.Bodies
