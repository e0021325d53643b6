import Alcy.Parser.Cursor

/-! # Identifiers, paths, types and patterns

Each production reads its `mark` first, as the source does, and guards the way
back into itself with it. -/
namespace Alcy.Parser
open Alcy.Ast Alcy.Diag
open Alcy.Lexer (Token TokenKind)
open PM

/-- A call that must not be entered before something after `mark` was consumed. -/
def PM.after {α : Type} (mark : Nat) (p : PM α) : PM α := fun s =>
  if s.pos ≤ mark then .error .stuck else p s

namespace Input

variable (inp : Input)

def tokenIdent (t : Token) : Ident := ⟨inp.text t.span, t.span⟩

def parseIdent (what : String) : PM Ident := do
  let t ← inp.peek
  if t.kind = .ident then
    inp.advance
    return inp.tokenIdent t
  else
    inp.expect .ident what
    fail

/-- The segment loop of `parse_path`; the flag says whether it may go on. -/
def parseSegments : PM (List Ident) :=
  loopM (fun segments => do
    let t ← inp.peek
    if isPathSegment t.kind then
      inp.advance
      let segments := segments ++ [inp.tokenIdent t]
      if ← inp.accept .colonColon then
        if ← inp.atEnd then
          inp.expect .ident "path segment"
          fail
        else return (segments, true)
      else return (segments, false)
    else if segments.isEmpty then
      inp.expect .ident "path"
      fail
    else return (segments, false)) inp.loopFuel []

def parsePath : PM Path := do
  let mark ← here
  let segments ← inp.parseSegments
  return ⟨segments, ← inp.spanFrom mark⟩

/-! ## Types -/

/-- `consume_gt`: a `>>` leaves a second half in `banked_gt_`. -/
def consumeGt : PM Bool := do
  if (← bankedGt) > 0 then
    modify fun s => { s with bankedGt := s.bankedGt - 1 }
    return true
  else if ← inp.accept .greater then return true
  else if ← inp.accept .greaterGreater then
    modify fun s => { s with bankedGt := 1 }
    return true
  else return false

def primitiveKind : TokenKind → Option PrimitiveKind
  | .i8 => some .i8
  | .i16 => some .i16
  | .i32 => some .i32
  | .i64 => some .i64
  | .i128 => some .i128
  | .isize => some .isize
  | .u8 => some .u8
  | .u16 => some .u16
  | .u32 => some .u32
  | .u64 => some .u64
  | .u128 => some .u128
  | .usize => some .usize
  | .f32 => some .f32
  | .f64 => some .f64
  | .bool => some .bool
  | _ => none

/-- The closers of a generic argument list. -/
def typeArgsClosed : PM Bool := do
  return (← inp.check .greater) || (← inp.check .greaterGreater) || (← inp.atEnd)

/-- The `(` branch of `parse_type`: unit, a parenthesised type, or a tuple. -/
def parseParenType (mark : Nat) (type : PM Ty) : PM Ty := do
  if ← inp.accept .rParen then return .unit (← inp.spanFrom mark)
  else
    let first ← type
    if ← inp.accept .comma then
      let elements ← inp.commaRest .rParen type [first]
      inp.expect .rParen "\x60)\x60"
      return .tuple (← inp.spanFrom mark) elements
    else
      inp.expect .rParen "\x60)\x60"
      return first

/-- The last branch: a path with optional arguments. -/
def parsePathType (mark : Nat) (type : PM Ty) : PM Ty := do
  let path ← inp.parsePath
  if ← inp.accept .less then
    let args ← inp.commaList inp.typeArgsClosed type
    if ← inp.consumeGt then return .path (← inp.spanFrom mark) path args
    else
      inp.expect .greater "\x60>\x60"
      fail
  else return .path (← inp.spanFrom mark) path []

/-- `parse_type`; `type` is the call back into it. -/
def parseTypeWith (type : PM Ty) : PM Ty := do
  let mark ← here
  let type := type.after mark
  let t ← inp.peek
  match t.kind with
  | .lParen =>
    inp.advance
    inp.parseParenType mark type
  | .bang =>
    inp.advance
    return .never (← inp.spanFrom mark)
  | .amp =>
    inp.advance
    let isMut ← inp.accept .mut
    let inner ← type
    return .ref (← inp.spanFrom mark) isMut inner
  | .str =>
    inp.advance
    return .str (← inp.spanFrom mark)
  | kind =>
    match primitiveKind kind with
    | some primitive =>
      inp.advance
      return .primitive (← inp.spanFrom mark) primitive
    | none => inp.parsePathType mark type

/-- `parse_type` down to a number of nested calls. -/
def typeLevel : Nat → PM Ty
  | 0 => fault .outOfFuel
  | depth + 1 => inp.parseTypeWith (typeLevel depth)

def parseType : PM Ty := inp.typeLevel (inp.tokens.length + 1)

/-- `parse_closed_type`: a banked `>` left over here closes nothing. -/
def parseClosedType : PM Ty := do
  let type ← inp.parseType
  if (← bankedGt) > 0 then
    modify fun s => { s with bankedGt := 0 }
    inp.expect .greater "\x60>\x60"
    fail
  else return type

/-! ## Patterns -/

def literalKind : TokenKind → Option LiteralKind
  | .integer => some .integer
  | .float => some .float
  | .string => some .string
  | .char => some .char
  | .true | .false => some .bool
  | _ => none

def tokenLiteral (kind : LiteralKind) (t : Token) : Literal := ⟨kind, t.span, inp.text t.span⟩

/-- The two ways back into patterns. -/
structure PatternRec where
  pattern : PM Pattern
  primary : PM Pattern

def PatternRec.after (self : PatternRec) (mark : Nat) : PatternRec :=
  ⟨self.pattern.after mark, self.primary.after mark⟩

/-- The `(` branch: a parenthesised pattern or a plain tuple. -/
def parseParenPattern (mark : Nat) (self : PatternRec) : PM Pattern := do
  let first ← self.pattern
  if ← inp.accept .comma then
    let elements ← inp.commaRest .rParen self.pattern [first]
    inp.expect .rParen "\x60)\x60"
    return .tuple (← inp.spanFrom mark) none elements
  else
    inp.expect .rParen "\x60)\x60"
    return first

/-- A lone segment that starts in lower case or with `_` binds a variable. -/
def bindingSegment (path : Path) : Option Ident :=
  match path.segments with
  | [segment] =>
    match segment.name.toList with
    | c :: _ => if c == '_' || ('a' ≤ c && c ≤ 'z') then some segment else none
    | [] => none
  | _ => none

/-- One field of a struct pattern; `x` alone stands for `x: x`. -/
def parseFieldPattern (self : PatternRec) : PM (Ident × Pattern) := do
  let name ← inp.parseIdent "field name"
  if ← inp.accept .colon then return (name, ← self.pattern)
  else return (name, .ident name.span name)

/-- What follows the path of a pattern that is not a binding. -/
def parsePathPattern (mark : Nat) (self : PatternRec) (path : Path) : PM Pattern := do
  if ← inp.accept .lParen then
    let elements ← inp.commaList (inp.check .rParen) self.pattern
    inp.expect .rParen "\x60)\x60"
    return .tuple (← inp.spanFrom mark) (some path) elements
  else if ← inp.accept .lBrace then
    let fields ← inp.commaRest .rBrace (inp.parseFieldPattern self) []
    inp.expect .rBrace "\x60\x7d\x60"
    return .struct (← inp.spanFrom mark) path fields
  else return .tuple (← inp.spanFrom mark) (some path) []

/-- A pattern that starts with a path. -/
def parseNamedPattern (mark : Nat) (self : PatternRec) : PM Pattern := do
  let path ← inp.parsePath
  match bindingSegment path with
  | some name => return .ident (← inp.spanFrom mark) name
  | none => inp.parsePathPattern mark self path

def parsePrimaryPattern (self : PatternRec) : PM Pattern := do
  let mark ← here
  let self := self.after mark
  let t ← inp.peek
  match t.kind with
  | .underscore =>
    inp.advance
    return .wildcard (← inp.spanFrom mark)
  | .mut =>
    inp.advance
    let name ← inp.parseIdent "pattern name"
    return .mutIdent (← inp.spanFrom mark) name
  | .minus =>
    inp.advance
    let number ← inp.peek
    if number.kind = .integer then
      inp.advance
      return .literal (← inp.spanFrom mark) (inp.tokenLiteral .integer number)
    else if number.kind = .float then
      inp.advance
      return .literal (← inp.spanFrom mark) (inp.tokenLiteral .float number)
    else
      inp.expect .integer "number literal"
      fail
  | .amp =>
    inp.advance
    let isMut ← inp.accept .mut
    let inner ← self.primary
    return .ref (← inp.spanFrom mark) isMut inner
  | .lParen =>
    inp.advance
    inp.parseParenPattern mark self
  | kind =>
    match literalKind kind with
    | some literal =>
      inp.advance
      return .literal (← inp.spanFrom mark) (inp.tokenLiteral literal t)
    | none => inp.parseNamedPattern mark self

/-- `parse_or_pattern`, which `parse_pattern` forwards to. -/
def parseOrPattern (self : PatternRec) : PM Pattern := do
  let mark ← here
  let first ← inp.parsePrimaryPattern self
  if ← inp.accept .pipe then
    let alternatives ← loopM (fun acc => do
      let alternative ← inp.parsePrimaryPattern self
      if ← inp.accept .pipe then return (acc ++ [alternative], true)
      else return (acc ++ [alternative], false)) inp.loopFuel [first]
    return .or (← inp.spanFrom mark) alternatives
  else return first

def patternLevel : Nat → PatternRec
  | 0 => ⟨fault .outOfFuel, fault .outOfFuel⟩
  | depth + 1 =>
    ⟨inp.parseOrPattern (patternLevel depth), inp.parsePrimaryPattern (patternLevel depth)⟩

def parsePattern : PM Pattern := (inp.patternLevel (inp.tokens.length + 1)).pattern

end Input
end Alcy.Parser
