import Alcy.Parser.Types

/-! # Expressions, blocks and statements

The levels of operator precedence call each other downwards. The ways back up
are `parse_expr`, which everything in brackets and blocks goes through, and the
calls of `parse_pow` and `parse_unary` to themselves. -/
namespace Alcy.Parser
open Alcy.Ast Alcy.Diag
open Alcy.Lexer (Token TokenKind)
open PM

structure ExprRec where
  expr : PM Expr
  pow : PM Expr
  unary : PM Expr

def ExprRec.after (self : ExprRec) (mark : Nat) : ExprRec :=
  ⟨self.expr.after mark, self.pow.after mark, self.unary.after mark⟩

namespace Input

variable (inp : Input)

/-! ## Blocks and statements -/

def parseStmt (self : ExprRec) : PM Stmt := do
  let mark ← here
  match ← inp.scanLead with
  | .decl =>
    let pattern ← inp.parsePattern
    let type ← if ← inp.accept .colon then some <$> inp.parseClosedType else pure none
    inp.expect .colonEq "\x60:=\x60"
    let init ← self.expr
    return .decl (← inp.spanFrom mark) pattern type init
  | .reassign =>
    let place ← self.expr
    let t ← inp.peek
    if t.kind = .eq then
      inp.advance
      let value ← self.expr
      return .reassign (← inp.spanFrom mark) place false .add value
    else if isCompoundAssign t.kind then
      inp.advance
      let value ← self.expr
      return .reassign (← inp.spanFrom mark) place true (compoundOp t.kind) value
    else
      inp.expect .eq "\x60=\x60"
      fail
  | .none =>
    let value ← self.expr
    return .expr (← inp.spanFrom mark) value

/-- One round of the loop in `parse_block`: the statements so far and the trailing
value, which ends the loop. -/
def blockRound (self : ExprRec) (acc : List Stmt × Option Expr) :
    PM ((List Stmt × Option Expr) × Bool) := do
  if (← inp.check .rBrace) || (← inp.atEnd) then return (acc, false)
  else if ← inp.accept .semicolon then return (acc, true)
  else
    match ← inp.orSynchronize (inp.parseStmt self) with
    | none => return (acc, true)
    | some stmt =>
      let last := (← inp.check .rBrace) || (← inp.atEnd)
      match stmt, last with
      | .expr _ value, true => return ((acc.1, some value), false)
      | stmt, _ =>
        let acc := (acc.1 ++ [stmt], acc.2)
        if ← inp.accept .semicolon then return (acc, true)
        else if (← inp.check .rBrace) || (← inp.atEnd) then return (acc, true)
        else
          report (← inp.peek).span "expected \x60;\x60"
          inp.synchronize
          return (acc, true)

def parseBlock (self : ExprRec) : PM Block := do
  let mark ← here
  let self := self.after mark
  inp.expect .lBrace "\x60\x7b\x60"
  let body ← loopM (inp.blockRound self) inp.loopFuel ([], none)
  inp.expect .rBrace "\x60\x7d\x60"
  return .mk (← inp.spanFrom mark) body.1 body.2

def parseBlockExpr (self : ExprRec) : PM Expr := do
  let mark ← here
  let block ← inp.parseBlock self
  return .block (← inp.spanFrom mark) block

/-! ## Control flow -/

/-- `parse_cond`: `:=` ahead at depth zero makes a pattern condition, and only a
plain condition is parsed without struct literals. -/
def parseCond (self : ExprRec) : PM Cond := do
  match ← inp.scanLead with
  | .decl =>
    let pattern ← inp.parsePattern
    inp.expect .colonEq "\x60:=\x60"
    return .pattern pattern (← self.expr)
  | _ => return .value (← withoutStructLit self.expr)

def parseIf (self : ExprRec) : PM Expr := do
  let mark ← here
  let self := self.after mark
  inp.expect .if "if"
  let cond ← inp.parseCond self
  let thenBlock ← inp.parseBlock self
  let elseBlock ← if ← inp.accept .else then some <$> inp.parseBlock self else pure none
  return .ifExpr (← inp.spanFrom mark) cond thenBlock elseBlock

def parseArm (self : ExprRec) : PM MatchArm := do
  let pattern ← inp.parsePattern
  inp.expect .fatArrow "\x60=>\x60"
  return .mk pattern (← self.expr)

/-- One round of the arm loop; commas and semicolons are both separators. -/
def matchRound (self : ExprRec) (acc : List MatchArm) : PM (List MatchArm × Bool) := do
  if (← inp.check .rBrace) || (← inp.atEnd) then return (acc, false)
  else if ← inp.accept .comma then return (acc, true)
  else if ← inp.accept .semicolon then return (acc, true)
  else
    match ← inp.orSynchronize (inp.parseArm self) with
    | none => return (acc, true)
    | some arm => return (acc ++ [arm], true)

def parseMatch (self : ExprRec) : PM Expr := do
  let mark ← here
  let self := self.after mark
  inp.expect .match "match"
  let scrutinee ← withoutStructLit self.expr
  inp.expect .lBrace "\x60\x7b\x60"
  let arms ← loopM (inp.matchRound self) inp.loopFuel []
  inp.expect .rBrace "\x60\x7d\x60"
  return .matchExpr (← inp.spanFrom mark) scrutinee arms

def parseLoop (self : ExprRec) : PM Expr := do
  let mark ← here
  inp.expect .loop "loop"
  let body ← inp.parseBlock self
  return .loop (← inp.spanFrom mark) body

def parseWhile (self : ExprRec) : PM Expr := do
  let mark ← here
  let self := self.after mark
  inp.expect .while "while"
  let cond ← inp.parseCond self
  let body ← inp.parseBlock self
  return .whileExpr (← inp.spanFrom mark) cond body

/-! ## Primary and postfix expressions -/

/-- Call arguments after the `(`, with the `)`. -/
def parseArgs (self : ExprRec) : PM (List Expr) := do
  let args ← inp.commaList (inp.check .rParen) self.expr
  inp.expect .rParen "\x60)\x60"
  return args

def parseParenExpr (mark : Nat) (self : ExprRec) : PM Expr := do
  let first ← self.expr
  if ← inp.accept .comma then
    let elements ← inp.commaRest .rParen self.expr [first]
    inp.expect .rParen "\x60)\x60"
    return .tuple (← inp.spanFrom mark) elements
  else
    inp.expect .rParen "\x60)\x60"
    return first

/-- `ret`, with a value unless a `;`, a `}` or the end follows. -/
def parseReturn (mark : Nat) (self : ExprRec) : PM Expr := do
  if (← inp.check .semicolon) || (← inp.check .rBrace) || (← inp.atEnd) then
    return .returnExpr (← inp.spanFrom mark) none
  else
    let value ← self.expr
    return .returnExpr (← inp.spanFrom mark) (some value)

/-- One round of the field loop of a struct literal; `..base` ends it. -/
def fieldRound (self : ExprRec) (acc : List FieldInit × Option Expr) :
    PM ((List FieldInit × Option Expr) × Bool) := do
  if (← inp.check .rBrace) || (← inp.atEnd) then return (acc, false)
  else if ← inp.accept .dotDot then
    let base ← self.expr
    return ((acc.1, some base), false)
  else
    let name ← inp.parseIdent "field name"
    inp.expect .colon "\x60:\x60"
    let value ← self.expr
    let acc := (acc.1 ++ [.mk name value], acc.2)
    if ← inp.accept .comma then return (acc, true)
    else return (acc, false)

/-- A struct literal after its `{`. -/
def parseStructLit (mark : Nat) (self : ExprRec) (path : Path) : PM Expr := do
  let (fields, base) ← loopM (inp.fieldRound self) inp.loopFuel ([], none)
  let base ←
    match base with
    | some base => pure (some base)
    | none => if ← inp.accept .dotDot then some <$> self.expr else pure none
  inp.expect .rBrace "\x60\x7d\x60"
  return .struct (← inp.spanFrom mark) path fields base

/-- `allow_struct_lit_ && match(LBrace)` -/
def acceptStructLit : PM Bool := do
  if ← allowStructLit then inp.accept .lBrace else return false

/-- What follows a path: a call, a struct literal, or nothing. -/
def parsePathExpr (mark : Nat) (self : ExprRec) : PM Expr := do
  let path ← inp.parsePath
  if ← inp.accept .lParen then
    let args ← inp.parseArgs self
    return .call (← inp.spanFrom mark) (.path path.span path) args
  else if ← inp.acceptStructLit then inp.parseStructLit mark self path
  else return .path (← inp.spanFrom mark) path

def parsePrimary (self : ExprRec) : PM Expr := do
  let mark ← here
  let guarded := self.after mark
  let t ← inp.peek
  match t.kind with
  | .lParen =>
    inp.advance
    inp.parseParenExpr mark guarded
  | .lBrace => inp.parseBlockExpr self
  | .if => inp.parseIf self
  | .match => inp.parseMatch self
  | .loop => inp.parseLoop self
  | .while => inp.parseWhile self
  | .ret =>
    inp.advance
    inp.parseReturn mark guarded
  | .break =>
    inp.advance
    return .breakExpr (← inp.spanFrom mark)
  | .continue =>
    inp.advance
    return .continueExpr (← inp.spanFrom mark)
  | kind =>
    match literalKind kind with
    | some literal =>
      inp.advance
      return .literal (← inp.spanFrom mark) (inp.tokenLiteral literal t)
    | none => inp.parsePathExpr mark guarded

/-- What follows a `.`: a tuple field, a method call or a field. -/
def parseMember (mark : Nat) (self : ExprRec) (base : Expr) : PM Expr := do
  let t ← inp.peek
  if t.kind = .integer then
    inp.advance
    return .field (← inp.spanFrom mark) base (inp.tokenIdent t)
  else
    let name ← inp.parseIdent "field name"
    if ← inp.accept .lParen then
      let args ← inp.parseArgs self
      return .methodCall (← inp.spanFrom mark) base name args
    else return .field (← inp.spanFrom mark) base name

/-- One round of the postfix loop. -/
def postfixRound (mark : Nat) (self : ExprRec) (base : Expr) : PM (Expr × Bool) := do
  if ← inp.accept .lParen then
    let args ← inp.parseArgs self
    return (.call (← inp.spanFrom mark) base args, true)
  else if ← inp.accept .dot then
    return (← inp.parseMember mark self base, true)
  else if ← inp.accept .lBracket then
    let index ← self.expr
    inp.expect .rBracket "\x60]\x60"
    return (.index (← inp.spanFrom mark) base index, true)
  else if ← inp.accept .question then
    return (.question (← inp.spanFrom mark) base, true)
  else return (base, false)

def parsePostfix (self : ExprRec) : PM Expr := do
  let mark ← here
  let base ← inp.parsePrimary self
  loopM (inp.postfixRound mark (self.after mark)) inp.loopFuel base

/-! ## Operators -/

def parseUnary (self : ExprRec) : PM Expr := do
  let mark ← here
  let guarded := self.after mark
  let t ← inp.peek
  let prefixed (op : UnaryOp) : PM Expr := do
    inp.advance
    let inner ← guarded.unary
    return .unary (← inp.spanFrom mark) op inner
  match t.kind with
  | .minus => prefixed .neg
  | .bang => prefixed .not
  | .tilde => prefixed .bitNot
  | .amp =>
    inp.advance
    let isMut ← inp.accept .mut
    let inner ← guarded.unary
    return .borrow (← inp.spanFrom mark) isMut inner
  | _ => inp.parsePostfix self

def parseCast (self : ExprRec) : PM Expr := do
  let mark ← here
  let inner ← inp.parseUnary self
  if ← inp.accept .as then
    let type ← inp.parseClosedType
    return .cast (← inp.spanFrom mark) inner type
  else return inner

def parsePow (self : ExprRec) : PM Expr := do
  let mark ← here
  let lhs ← inp.parseCast self
  if ← inp.accept .starStar then
    let rhs ← (self.after mark).pow
    return .binary (← inp.spanFrom mark) .pow lhs rhs
  else return lhs

/-- A level of left-associative operators: the loops of `parse_or`, `parse_and`,
`parse_bitor`, `parse_bitxor`, `parse_bitand`, `parse_shift`, `parse_add` and
`parse_mul`. -/
def parseLeft (op : TokenKind → Option BinaryOp) (operand : PM Expr) : PM Expr := do
  let mark ← here
  let lhs ← operand
  loopM (fun lhs => do
    let t ← inp.peek
    match op t.kind with
    | none => return (lhs, false)
    | some op =>
      inp.advance
      let rhs ← operand
      return (.binary (← inp.spanFrom mark) op lhs rhs, true)) inp.loopFuel lhs

def mulOp : TokenKind → Option BinaryOp
  | .star => some .mul
  | .slash => some .div
  | .percent => some .mod
  | _ => none

def addOp : TokenKind → Option BinaryOp
  | .plus => some .add
  | .minus => some .sub
  | _ => none

def shiftOp : TokenKind → Option BinaryOp
  | .lessLess => some .shl
  | .greaterGreater => some .shr
  | _ => none

/-- A level with one operator. -/
def onlyOp (kind : TokenKind) (op : BinaryOp) (k : TokenKind) : Option BinaryOp :=
  if k = kind then some op else none

def parseMul (self : ExprRec) : PM Expr := inp.parseLeft mulOp (inp.parsePow self)
def parseAdd (self : ExprRec) : PM Expr := inp.parseLeft addOp (inp.parseMul self)
def parseShift (self : ExprRec) : PM Expr := inp.parseLeft shiftOp (inp.parseAdd self)
def parseBitand (self : ExprRec) : PM Expr :=
  inp.parseLeft (onlyOp .amp .bitAnd) (inp.parseShift self)
def parseBitxor (self : ExprRec) : PM Expr :=
  inp.parseLeft (onlyOp .caret .bitXor) (inp.parseBitand self)
def parseBitor (self : ExprRec) : PM Expr :=
  inp.parseLeft (onlyOp .pipe .bitOr) (inp.parseBitxor self)

def cmpOp : TokenKind → Option BinaryOp
  | .eqEq => some .eq
  | .bangEq => some .notEq
  | .greater => some .gt
  | .less => some .lt
  | .greaterEq => some .gtEq
  | .lessEq => some .ltEq
  | _ => none

/-- `parse_cmp`: comparisons do not chain. -/
def parseCmp (self : ExprRec) : PM Expr := do
  let mark ← here
  let lhs ← inp.parseBitor self
  let t ← inp.peek
  match cmpOp t.kind with
  | none => return lhs
  | some op =>
    inp.advance
    let rhs ← inp.parseBitor self
    return .binary (← inp.spanFrom mark) op lhs rhs

def parseAnd (self : ExprRec) : PM Expr :=
  inp.parseLeft (onlyOp .ampAmp .and) (inp.parseCmp self)
def parseOr (self : ExprRec) : PM Expr := inp.parseLeft (onlyOp .pipePipe .or) (inp.parseAnd self)

def isRangeOp : TokenKind → Bool
  | .dotDot | .dotDotEq | .dotDotLess => true
  | _ => false

/-- The tokens before which `..=` and `..<` have no end. -/
def endsRange : TokenKind → Bool
  | .rBrace | .rBracket | .rParen | .comma | .semicolon | .eof => true
  | _ => false

/-- A range after its operator; `..` never takes an end. -/
def parseRangeEnd (mark : Nat) (self : ExprRec) (start : Option Expr) (op : TokenKind) :
    PM Expr := do
  let inclusive := op == .dotDotEq
  if op = .dotDot then return .range (← inp.spanFrom mark) start none inclusive
  else
    let t ← inp.peek
    if endsRange t.kind then return .range (← inp.spanFrom mark) start none inclusive
    else
      let stop ← inp.parseOr self
      return .range (← inp.spanFrom mark) start (some stop) inclusive

/-- `parse_range`, which `parse_expr` forwards to. -/
def parseRange (self : ExprRec) : PM Expr := do
  let mark ← here
  let t ← inp.peek
  if isRangeOp t.kind then
    inp.advance
    inp.parseRangeEnd mark self none t.kind
  else
    let lhs ← inp.parseOr self
    let t ← inp.peek
    if isRangeOp t.kind then
      inp.advance
      inp.parseRangeEnd mark self (some lhs) t.kind
    else return lhs

/-- Expressions down to a number of nested calls. -/
def exprLevel : Nat → ExprRec
  | 0 => ⟨fault .outOfFuel, fault .outOfFuel, fault .outOfFuel⟩
  | depth + 1 =>
    ⟨inp.parseRange (exprLevel depth), inp.parsePow (exprLevel depth),
      inp.parseUnary (exprLevel depth)⟩

def exprRec : ExprRec := inp.exprLevel (inp.tokens.length + 1)

def parseExpr : PM Expr := inp.exprRec.expr

end Input
end Alcy.Parser
