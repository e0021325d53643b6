import Alcy.Analyzer.Callees
import Alcy.Analyzer.Never

/-! # Values and the patterns that match them

What `bind_pattern` calls irrefutable is a statement about values. Here are the values of a type as
the type tables describe it, and which of them a pattern matches. What a scalar and a literal denote
is left open.
-/
namespace Alcy.Analyzer.Bodies
open Alcy.Ast Alcy.Diag Alcy.Ir Alcy.Analyzer.Types

/-! ## Values -/

/-- A value at run time. Fields of a struct and elements of a tuple are in order. -/
inductive Value where
  | scalar (code : Nat)
  | aggregate (parts : List Value)
  | variant (index : Nat) (payload : List Value)
  | ref (target : Value)

/-- The values of the scalar types, and those that literals stand for. -/
structure Scalars where
  fits : TypeTag → Nat → Prop
  spells : Literal → Nat → Prop

def isScalarTag : TypeTag → Bool
  | .void | .i1 | .i8 | .i16 | .i32 | .i64 | .u8 | .u16 | .u32 | .u64 | .f32 | .f64 | .str => true
  | _ => false

/-- The payload types of a variant, as the tables have them. -/
def payloadTypes (s : Storage) (idx : TypeIdx) (i : Nat) : Option (List TypeIdx) := do
  let node ← s.types[idx]?
  let row ← s.enumTypes[← node.asEnum]?
  let variant ← s.enumVariantTypes[← row.variants.toList[i]?]?
  return variant.fields.toList

/-- The values of a type. There is none of `!`, and none of the type of an error. -/
inductive HasType (sc : Scalars) (s : Storage) : TypeIdx → Value → Prop where
  | scalar {idx : TypeIdx} {node : TypeNode} {code : Nat} :
      s.types[idx]? = some node → isScalarTag node.tag = true → sc.fits node.tag code →
        HasType sc s idx (.scalar code)
  | tuple {idx : TypeIdx} {k : Nat} {row : TupleType} {parts : List Value} :
      s.types[idx]? = some ⟨.tuple, k⟩ → s.tupleTypes[k]? = some row →
        List.Forall₂ (HasType sc s) row.elements.toList parts → HasType sc s idx (.aggregate parts)
  | struct {idx : TypeIdx} {k : Nat} {row : StructType} {parts : List Value} :
      s.types[idx]? = some ⟨.struct, k⟩ → s.structTypes[k]? = some row →
        List.Forall₂ (HasType sc s) row.fields.toList parts → HasType sc s idx (.aggregate parts)
  | enum {idx : TypeIdx} {i : Nat} {types : List TypeIdx} {payload : List Value} :
      payloadTypes s idx i = some types → List.Forall₂ (HasType sc s) types payload →
        HasType sc s idx (.variant i payload)
  | ref {idx : TypeIdx} {node : TypeNode} {row : RefType} {target : Value} :
      s.types[idx]? = some node → node.tag = .ref ∨ node.tag = .mutRef →
        s.refTypes[node.data]? = some row → HasType sc s row.pointee target →
          HasType sc s idx (.ref target)

/-! ## Patterns -/

variable (sc : Scalars) (p : Package)

/-- The declaration of the struct that a path names. -/
def structAt (module : Nat) (path : Path) (st : BodyState) : Option StructItem :=
  match (resolveStructPath p module path st).toOption with
  | some (some e, _) => ((structDecl e st).toOption).map (·.1)
  | _ => none

/-- The variant that a path names in a pattern; those of `Result` and `Option` have an order. -/
def variantAt (module : Nat) (path : Path) (st : BodyState) : Option Nat :=
  match (resolveVariantPath p module path st).toOption with
  | some (some (.tupleVariant found _), _) => some found.variant
  | some (some (.blessedCtor _ first _), _) => some (if first then 0 else 1)
  | _ => none

mutual

/-- The pattern matches the value, with the meaning that its paths have in the state. -/
def Matches (module : Nat) (st : BodyState) : Pattern → Value → Prop
  | .wildcard _, _ | .ident _ _, _ | .mutIdent _ _, _ => True
  | .literal _ value, v => ∃ code, v = .scalar code ∧ sc.spells value code
  | .tuple _ none elements, v => ∃ parts, v = .aggregate parts ∧ MatchAll module st elements parts
  | .tuple _ (some path) elements, v => ∃ i payload, v = .variant i payload ∧
      variantAt p module path st = some i ∧ MatchAll module st elements payload
  | .struct _ path fields, v => ∃ parts, v = .aggregate parts ∧
      MatchFields module st (structAt p module path st) fields parts
  | .ref _ _ inner, v => ∃ target, v = .ref target ∧ Matches module st inner target
  | .or _ alternatives, v => MatchAny module st alternatives v

def MatchAll (module : Nat) (st : BodyState) : List Pattern → List Value → Prop
  | [], [] => True
  | pattern :: patterns, v :: vs => Matches module st pattern v ∧ MatchAll module st patterns vs
  | _, _ => False

def MatchFields (module : Nat) (st : BodyState) (decl : Option StructItem) :
    List (Ident × Pattern) → List Value → Prop
  | [], _ => True
  | (name, pattern) :: rest, parts => (∃ strukt i v, decl = some strukt ∧
      fieldIndex strukt name.name = some i ∧ parts[i]? = some v ∧ Matches module st pattern v) ∧
        MatchFields module st decl rest parts

def MatchAny (module : Nat) (st : BodyState) : List Pattern → Value → Prop
  | [], _ => False
  | pattern :: rest, v => Matches module st pattern v ∨ MatchAny module st rest v

end

/-! ## Shapes -/

mutual

/-- Whether the pattern is refutable, by its shape. Where that is a question of types, the answer is
`guess`: against `!` a tuple pattern is irrefutable, and a path may name no variant. -/
def refutableShape (guess : Bool) : Pattern → Bool
  | .wildcard _ | .ident _ _ | .mutIdent _ _ => false
  | .literal _ _ => true
  | .tuple _ (some _) elements => guess || allRefutable guess elements
  | .tuple _ none elements => guess && anyRefutable guess elements
  | .struct _ path fields => (guess || !path.segments.isEmpty) && anyField guess fields
  | .ref _ _ inner => refutableShape guess inner
  | .or _ alternatives => anyRefutable guess alternatives

def allRefutable (guess : Bool) : List Pattern → Bool
  | [] => true
  | pattern :: rest => refutableShape guess pattern && allRefutable guess rest

def anyRefutable (guess : Bool) : List Pattern → Bool
  | [] => false
  | pattern :: rest => refutableShape guess pattern || anyRefutable guess rest

def anyField (guess : Bool) : List (Ident × Pattern) → Bool
  | [] => false
  | (_, pattern) :: rest => refutableShape guess pattern || anyField guess rest

end

mutual

/-- In the variants that the pattern names, every part of the payload is refutable by its shape. Of
the alternatives of an or-pattern this is asked of one. -/
def payloadsRefutable : Pattern → Bool
  | .wildcard _ | .ident _ _ | .mutIdent _ _ | .literal _ _ => true
  | .tuple _ (some _) elements => allRefutable false elements
  | .tuple _ none elements => allPayloads elements
  | .struct _ path fields => !path.segments.isEmpty && fieldPayloads fields
  | .ref _ _ inner => payloadsRefutable inner
  | .or _ alternatives => anyPayloads alternatives

def allPayloads : List Pattern → Bool
  | [] => true
  | pattern :: rest => payloadsRefutable pattern && allPayloads rest

def fieldPayloads : List (Ident × Pattern) → Bool
  | [] => true
  | (_, pattern) :: rest => payloadsRefutable pattern && fieldPayloads rest

def anyPayloads : List Pattern → Bool
  | [] => false
  | pattern :: rest => payloadsRefutable pattern || anyPayloads rest

end

end Alcy.Analyzer.Bodies
