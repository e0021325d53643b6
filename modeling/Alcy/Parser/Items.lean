import Alcy.Parser.Exprs

/-! # Items and whole files -/
namespace Alcy.Parser
open Alcy.Ast Alcy.Diag
open Alcy.Lexer (Token TokenKind)
open PM

namespace Input

variable (inp : Input)

def parseParam : PM FnParam := do
  let pattern ← inp.parsePattern
  inp.expect .colon "\x60:\x60"
  return ⟨pattern, ← inp.parseClosedType⟩

def parseFn (isPub : Bool) : PM FnItem := do
  let mark ← here
  inp.expect .fn "function"
  let name ← inp.parseIdent "function name"
  inp.expect .lParen "\x60(\x60"
  let params ← inp.commaList (inp.check .rParen) inp.parseParam
  inp.expect .rParen "\x60)\x60"
  let returnType ← if ← inp.accept .arrow then some <$> inp.parseClosedType else pure none
  let body ← inp.parseBlock inp.exprRec
  return ⟨← inp.spanFrom mark, isPub, name, params, returnType, body⟩

def parseStructField : PM StructField := do
  let name ← inp.parseIdent "field name"
  inp.expect .colon "\x60:\x60"
  return ⟨name, ← inp.parseClosedType⟩

def parseStruct (isPub : Bool) : PM StructItem := do
  let mark ← here
  inp.expect .struct "struct"
  let name ← inp.parseIdent "struct name"
  inp.expect .lBrace "\x60\x7b\x60"
  let fields ← inp.commaRest .rBrace inp.parseStructField []
  inp.expect .rBrace "\x60\x7d\x60"
  return ⟨← inp.spanFrom mark, isPub, name, fields⟩

/-- Payload types are not closed types in the source. -/
def parseVariant : PM EnumVariant := do
  let name ← inp.parseIdent "variant name"
  if ← inp.accept .lParen then
    let fields ← inp.commaList (inp.check .rParen) inp.parseType
    inp.expect .rParen "\x60)\x60"
    return ⟨name, fields⟩
  else return ⟨name, []⟩

def parseEnum (isPub : Bool) : PM EnumItem := do
  let mark ← here
  inp.expect .enum "enum"
  let name ← inp.parseIdent "enum name"
  inp.expect .lBrace "\x60\x7b\x60"
  let variants ← inp.commaRest .rBrace inp.parseVariant []
  inp.expect .rBrace "\x60\x7d\x60"
  return ⟨← inp.spanFrom mark, isPub, name, variants⟩

def parseImpl (isPub : Bool) : PM ImplItem := do
  let mark ← here
  inp.expect .impl "impl"
  let type ← inp.parseClosedType
  inp.expect .lBrace "\x60\x7b\x60"
  let methods ← inp.recoverList (inp.parseFn false)
  inp.expect .rBrace "\x60\x7d\x60"
  return ⟨← inp.spanFrom mark, isPub, type, methods⟩

/-- `parse_static` and `parse_const`, which differ in their keyword. -/
def parseGlobal (kind : TokenKind) (what nameWhat : String) (isPub : Bool) : PM StaticItem := do
  let mark ← here
  inp.expect kind what
  let name ← inp.parseIdent nameWhat
  inp.expect .colon "\x60:\x60"
  let type ← inp.parseClosedType
  inp.expect .eq "\x60=\x60"
  let init ← inp.parseExpr
  return ⟨← inp.spanFrom mark, isPub, name, type, init⟩

def parseStatic (isPub : Bool) : PM StaticItem := inp.parseGlobal .static "static" "static name" isPub
def parseConst (isPub : Bool) : PM StaticItem := inp.parseGlobal .const "const" "const name" isPub

def parseUse (isPub : Bool) : PM UseItem := do
  let mark ← here
  inp.expect .use "use"
  let path ← inp.parsePath
  let aliasName ← if ← inp.accept .as then some <$> inp.parseIdent "alias" else pure none
  inp.expect .semicolon "\x60;\x60"
  return ⟨← inp.spanFrom mark, isPub, path, aliasName⟩

def parseMod (item : PM Item) (isPub : Bool) : PM Item := do
  let mark ← here
  let item := item.after mark
  inp.expect .mod "module"
  let name ← inp.parseIdent "module name"
  if ← inp.accept .semicolon then return .mod (← inp.spanFrom mark) isPub name [] false
  else
    inp.expect .lBrace "\x60\x7b\x60"
    let items ← inp.recoverList item
    inp.expect .rBrace "\x60\x7d\x60"
    return .mod (← inp.spanFrom mark) isPub name items true

/-- `parse_item` after `pub`; `item` is the call back from inline modules. -/
def parseItemKind (item : PM Item) (isPub : Bool) : PM Item := do
  match (← inp.peek).kind with
  | .fn => .fn <$> inp.parseFn isPub
  | .struct => .struct <$> inp.parseStruct isPub
  | .enum => .enum <$> inp.parseEnum isPub
  | .impl => .impl <$> inp.parseImpl isPub
  | .mod => inp.parseMod item isPub
  | .static => .static <$> inp.parseStatic isPub
  | .const => .const <$> inp.parseConst isPub
  | .use => .use <$> inp.parseUse isPub
  | _ =>
    inp.reportExpected "item"
    fail

def parseItemWith (item : PM Item) : PM Item := do
  let isPub ← inp.accept .pub
  inp.parseItemKind item isPub

def itemLevel : Nat → PM Item
  | 0 => fault .outOfFuel
  | depth + 1 => inp.parseItemWith (itemLevel depth)

def parseItem : PM Item := inp.itemLevel (inp.tokens.length + 1)

/-- One round of the loop of `parse`. -/
def itemsRound (items : List Item) : PM (List Item × Bool) := do
  if ← inp.atEnd then return (items, false)
  else if ← inp.accept .semicolon then return (items, true)
  else
    match ← inp.orSynchronize inp.parseItem with
    | none => return (items, true)
    | some item => return (items ++ [item], true)

def parseItems : PM (List Item) := loopM inp.itemsRound inp.loopFuel []

/-- The state the constructor leaves behind. -/
def start (bag : DiagBag) : PState :=
  inp.skipInsignificant ⟨0, ⟨inp.file, 0, 0⟩, 0, true, bag⟩

/-- `parse` of a new parser: the items, and the state it stops in. -/
def parse (bag : DiagBag) : Except Fault (Option (List Item) × PState) :=
  inp.parseItems (inp.start bag)

end Input
end Alcy.Parser
