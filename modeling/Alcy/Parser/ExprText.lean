import Alcy.Parser.Exprs
import Alcy.Parser.PatternText

/-! # Expressions as text

Expressions, statements and blocks as they are spelled, parentheses and separators included. `legible`
says where a text must agree with the way the parser reads: which level of precedence an operand has,
which kinds an expression may stand before, and whether a struct literal is allowed at its place. -/
namespace Alcy.Parser
open Alcy.Ast Alcy.Diag
open Alcy.Lexer (Token TokenKind)
open Input (StmtLead)

inductive RangeOp where
  | dotDot | dotDotEq | dotDotLess
  deriving Repr, DecidableEq

def RangeOp.token : RangeOp → TokenKind
  | .dotDot => .dotDot
  | .dotDotEq => .dotDotEq
  | .dotDotLess => .dotDotLess

inductive AssignOp where
  | eq | plusEq | minusEq | starEq | slashEq | percentEq | starStarEq | ampEq | pipeEq | caretEq
  | lessLessEq | greaterGreaterEq
  deriving Repr, DecidableEq

def AssignOp.token : AssignOp → TokenKind
  | .eq => .eq
  | .plusEq => .plusEq
  | .minusEq => .minusEq
  | .starEq => .starEq
  | .slashEq => .slashEq
  | .percentEq => .percentEq
  | .starStarEq => .starStarEq
  | .ampEq => .ampEq
  | .pipeEq => .pipeEq
  | .caretEq => .caretEq
  | .lessLessEq => .lessLessEq
  | .greaterGreaterEq => .greaterGreaterEq

mutual

/-- An expression as it is spelled. The empty tuple is `()`; a tuple of one element has its comma. -/
inductive ExprText where
  | literal (kind : LiteralKind) (spelling : String)
  | path (path : PathText)
  | struct (path : PathText) (fields : List FieldText) (trailing : Bool) (base : Option ExprText)
  | tuple (elements : List ExprText) (trailing : Bool)
  | paren (inner : ExprText)
  | unary (op : UnaryOp) (inner : ExprText)
  | borrow (isMut : Bool) (inner : ExprText)
  | binary (op : BinaryOp) (lhs rhs : ExprText)
  | cast (inner : ExprText) (type : TypeText)
  | call (callee : ExprText) (args : List ExprText) (trailing : Bool)
  | methodCall (receiver : ExprText) (name : String) (args : List ExprText) (trailing : Bool)
  | field (receiver : ExprText) (name : String)
  | index (receiver index : ExprText)
  | question (inner : ExprText)
  | ifExpr (cond : CondText) (thenBlock : BlockText) (elseBlock : Option BlockText)
  | matchExpr (scrutinee : ExprText) (arms : List ArmText)
  | loop (body : BlockText)
  | whileExpr (cond : CondText) (body : BlockText)
  | block (block : BlockText)
  | returnExpr (value : Option ExprText)
  | breakExpr
  | continueExpr
  | range (start : Option ExprText) (op : RangeOp) (stop : Option ExprText)

inductive FieldText where
  | mk (name : String) (value : ExprText)

inductive CondText where
  | pattern (pattern : PatternText) (init : ExprText)
  | value (value : ExprText)

/-- An arm and the separators after it: a comma or else a semicolon each. -/
inductive ArmText where
  | mk (pattern : PatternText) (body : ExprText) (separators : List Bool)

inductive BlockText where
  | mk (lines : List LineText)

/-- A statement and how many semicolons follow it. -/
inductive LineText where
  | mk (stmt : StmtText) (semicolons : Nat)

inductive StmtText where
  | decl (pattern : PatternText) (type : Option TypeText) (init : ExprText)
  | reassign (place : ExprText) (op : AssignOp) (value : ExprText)
  | expr (value : ExprText)

end

/-! ## Spelling -/

def unaryToken : UnaryOp → TokenKind
  | .neg => .minus
  | .not => .bang
  | .bitNot => .tilde

def binaryToken : BinaryOp → TokenKind
  | .add => .plus
  | .sub => .minus
  | .mul => .star
  | .div => .slash
  | .mod => .percent
  | .pow => .starStar
  | .bitAnd => .amp
  | .bitOr => .pipe
  | .bitXor => .caret
  | .shl => .lessLess
  | .shr => .greaterGreater
  | .eq => .eqEq
  | .notEq => .bangEq
  | .gt => .greater
  | .lt => .less
  | .gtEq => .greaterEq
  | .ltEq => .lessEq
  | .and => .ampAmp
  | .or => .pipePipe

/-- A name that starts with a digit is the index of a tuple field. -/
def indexName (name : String) : Bool :=
  match name.toList with
  | c :: _ => '0' ≤ c && c ≤ '9'
  | [] => false

def memberText (name : String) : Lexeme := ⟨if indexName name then .integer else .ident, name⟩

def separatorText (comma : Bool) : Lexeme := symbol (if comma then .comma else .semicolon)

mutual

def ExprText.lexemes : ExprText → List Lexeme
  | .literal kind spelling => [literalText kind spelling]
  | .path name => name.lexemes
  | .struct name fields trailing base =>
    name.lexemes ++ symbol .lBrace :: (FieldText.listLexemes (trailing || base.isSome) fields ++
      ExprText.baseLexemes base ++ [symbol .rBrace])
  | .tuple elements trailing =>
    symbol .lParen :: (ExprText.listLexemes (trailing || elements.length == 1) elements ++
      [symbol .rParen])
  | .paren inner => symbol .lParen :: (inner.lexemes ++ [symbol .rParen])
  | .unary op inner => symbol (unaryToken op) :: inner.lexemes
  | .borrow isMut inner => symbol .amp :: (mutText isMut ++ inner.lexemes)
  | .binary op lhs rhs => lhs.lexemes ++ symbol (binaryToken op) :: rhs.lexemes
  | .cast inner type => inner.lexemes ++ symbol .as :: munch type.halves
  | .call callee args trailing =>
    callee.lexemes ++ symbol .lParen :: (ExprText.listLexemes trailing args ++ [symbol .rParen])
  | .methodCall receiver name args trailing =>
    receiver.lexemes ++ symbol .dot :: identText name :: symbol .lParen ::
      (ExprText.listLexemes trailing args ++ [symbol .rParen])
  | .field receiver name => receiver.lexemes ++ [symbol .dot, memberText name]
  | .index receiver place =>
    receiver.lexemes ++ symbol .lBracket :: (place.lexemes ++ [symbol .rBracket])
  | .question inner => inner.lexemes ++ [symbol .question]
  | .ifExpr cond thenBlock elseBlock =>
    symbol .if :: (cond.lexemes ++ (thenBlock.lexemes ++ BlockText.elseLexemes elseBlock))
  | .matchExpr scrutinee arms =>
    symbol .match :: (scrutinee.lexemes ++ symbol .lBrace :: (ArmText.listLexemes arms ++
      [symbol .rBrace]))
  | .loop body => symbol .loop :: body.lexemes
  | .whileExpr cond body => symbol .while :: (cond.lexemes ++ body.lexemes)
  | .block body => body.lexemes
  | .returnExpr value => symbol .ret :: ExprText.optionLexemes value
  | .breakExpr => [symbol .break]
  | .continueExpr => [symbol .continue]
  | .range start op stop =>
    ExprText.optionLexemes start ++ symbol op.token :: ExprText.optionLexemes stop

def ExprText.listLexemes (trailing : Bool) : List ExprText → List Lexeme
  | [] => []
  | expr :: exprs =>
    expr.lexemes ++ (if exprs.isEmpty && !trailing then [] else [symbol .comma]) ++
      ExprText.listLexemes trailing exprs

def ExprText.optionLexemes : Option ExprText → List Lexeme
  | none => []
  | some expr => expr.lexemes

def ExprText.baseLexemes : Option ExprText → List Lexeme
  | none => []
  | some expr => symbol .dotDot :: expr.lexemes

def FieldText.lexemes : FieldText → List Lexeme
  | .mk name value => identText name :: symbol .colon :: value.lexemes

def FieldText.listLexemes (trailing : Bool) : List FieldText → List Lexeme
  | [] => []
  | field :: fields =>
    field.lexemes ++ (if fields.isEmpty && !trailing then [] else [symbol .comma]) ++
      FieldText.listLexemes trailing fields

def CondText.lexemes : CondText → List Lexeme
  | .pattern lhs init => lhs.lexemes ++ symbol .colonEq :: init.lexemes
  | .value inner => inner.lexemes

def ArmText.lexemes : ArmText → List Lexeme
  | .mk pattern body separators =>
    pattern.lexemes ++ symbol .fatArrow :: (body.lexemes ++ separators.map separatorText)

def ArmText.listLexemes : List ArmText → List Lexeme
  | [] => []
  | arm :: arms => arm.lexemes ++ ArmText.listLexemes arms

def BlockText.lexemes : BlockText → List Lexeme
  | .mk lines => symbol .lBrace :: (LineText.listLexemes lines ++ [symbol .rBrace])

def BlockText.elseLexemes : Option BlockText → List Lexeme
  | none => []
  | some block => symbol .else :: block.lexemes

def LineText.lexemes : LineText → List Lexeme
  | .mk stmt semicolons => stmt.lexemes ++ List.replicate semicolons (symbol .semicolon)

def LineText.listLexemes : List LineText → List Lexeme
  | [] => []
  | line :: lines => line.lexemes ++ LineText.listLexemes lines

def StmtText.lexemes : StmtText → List Lexeme
  | .decl pattern type init =>
    pattern.lexemes ++ ((match type with
      | none => []
      | some type => symbol .colon :: munch type.halves) ++ symbol .colonEq :: init.lexemes)
  | .reassign place op value => place.lexemes ++ symbol op.token :: value.lexemes
  | .expr value => value.lexemes

end

/-! ## Trees -/

/-- A statement that is the value of its block: an expression right before the brace. -/
def LineText.isValue : LineText → Bool
  | .mk (.expr _) 0 => true
  | _ => false

mutual

def ExprText.tree : ExprText → Expr
  | .literal kind spelling => .literal default (plainLiteral kind spelling)
  | .path name => .path default name.tree
  | .struct name fields _ base =>
    .struct default name.tree (FieldText.trees fields) (ExprText.optionTree base)
  | .tuple elements _ => .tuple default (ExprText.trees elements)
  | .paren inner => inner.tree
  | .unary op inner => .unary default op inner.tree
  | .borrow isMut inner => .borrow default isMut inner.tree
  | .binary op lhs rhs => .binary default op lhs.tree rhs.tree
  | .cast inner type => .cast default inner.tree type.tree
  | .call callee args _ => .call default callee.tree (ExprText.trees args)
  | .methodCall receiver name args _ =>
    .methodCall default receiver.tree (plainIdent name) (ExprText.trees args)
  | .field receiver name => .field default receiver.tree (plainIdent name)
  | .index receiver place => .index default receiver.tree place.tree
  | .question inner => .question default inner.tree
  | .ifExpr cond thenBlock elseBlock =>
    .ifExpr default cond.tree thenBlock.tree (BlockText.optionTree elseBlock)
  | .matchExpr scrutinee arms => .matchExpr default scrutinee.tree (ArmText.trees arms)
  | .loop body => .loop default body.tree
  | .whileExpr cond body => .whileExpr default cond.tree body.tree
  | .block body => .block default body.tree
  | .returnExpr value => .returnExpr default (ExprText.optionTree value)
  | .breakExpr => .breakExpr default
  | .continueExpr => .continueExpr default
  | .range start op stop =>
    .range default (ExprText.optionTree start) (ExprText.optionTree stop) (op == .dotDotEq)

def ExprText.trees : List ExprText → List Expr
  | [] => []
  | expr :: exprs => expr.tree :: ExprText.trees exprs

def ExprText.optionTree : Option ExprText → Option Expr
  | none => none
  | some expr => some expr.tree

def FieldText.tree : FieldText → FieldInit
  | .mk name value => .mk (plainIdent name) value.tree

def FieldText.trees : List FieldText → List FieldInit
  | [] => []
  | field :: fields => field.tree :: FieldText.trees fields

def CondText.tree : CondText → Cond
  | .pattern lhs init => .pattern lhs.tree init.tree
  | .value inner => .value inner.tree

def ArmText.tree : ArmText → MatchArm
  | .mk pattern body _ => .mk pattern.tree body.tree

def ArmText.trees : List ArmText → List MatchArm
  | [] => []
  | arm :: arms => arm.tree :: ArmText.trees arms

def BlockText.tree : BlockText → Block
  | .mk lines => .mk default (LineText.stmts lines) (LineText.lastValue lines)

def BlockText.optionTree : Option BlockText → Option Block
  | none => none
  | some block => some block.tree

/-- The statements of a block, without its value. -/
def LineText.stmts : List LineText → List Stmt
  | [] => []
  | line :: lines =>
    if lines.isEmpty && line.isValue then [] else line.tree :: LineText.stmts lines

/-- The value of a block: its last statement may be one. -/
def LineText.lastValue : List LineText → Option Expr
  | [] => none
  | line :: lines => if lines.isEmpty then line.value else LineText.lastValue lines

def LineText.tree : LineText → Stmt
  | .mk stmt _ => stmt.tree

def LineText.value : LineText → Option Expr
  | .mk stmt semicolons => if semicolons = 0 then stmt.value else none

def StmtText.tree : StmtText → Stmt
  | .decl pattern type init => .decl default pattern.tree (type.map TypeText.tree) init.tree
  | .reassign place op value =>
    .reassign default place.tree (op != .eq) (if op = .eq then .add else compoundOp op.token)
      value.tree
  | .expr value => .expr default value.tree

def StmtText.value : StmtText → Option Expr
  | .expr value => some value.tree
  | _ => none

end

/-! ## Looking ahead -/

/-- What `scan_lead` has found after some lexemes: an answer, or a nesting depth to go on with. -/
inductive Scan where
  | found (lead : StmtLead)
  | through (depth : Nat)
  deriving Repr, DecidableEq

/-- `scan_lead` over lexemes that the cursor does not pass over. -/
def scan : List Lexeme → Nat → Scan
  | [], depth => .through depth
  | l :: ls, depth =>
    if depth = 0 ∧ l.kind = .colonEq then .found .decl
    else if depth = 0 ∧ (l.kind = .eq ∨ isCompoundAssign l.kind = true) then .found .reassign
    else if depth = 0 ∧ (l.kind = .semicolon ∨ l.kind = .rBrace ∨ l.kind = .lBrace ∨ l.kind = .eof)
    then .found .none
    else if Input.isOpener l.kind then scan ls (depth + 1)
    else if Input.isCloser l.kind && depth > 0 then scan ls (depth - 1)
    else scan ls depth

/-- Nothing on the way from here makes up the mind of `scan_lead`. -/
def passed (text : List Lexeme) : Bool := scan text 0 == .through 0

/-! ## Precedence -/

def opLevel : BinaryOp → Nat
  | .or => 1
  | .and => 2
  | .eq | .notEq | .gt | .lt | .gtEq | .ltEq => 3
  | .bitOr => 4
  | .bitXor => 5
  | .bitAnd => 6
  | .shl | .shr => 7
  | .add | .sub => 8
  | .mul | .div | .mod => 9
  | .pow => 10

/-- The levels that the operands of a binary operator must have. Comparisons do not chain, and `**`
takes a cast on its left. -/
def leftLevel : BinaryOp → Nat
  | .eq | .notEq | .gt | .lt | .gtEq | .ltEq => 4
  | .pow => 11
  | op => opLevel op

def rightLevel : BinaryOp → Nat
  | .pow => 10
  | op => opLevel op + 1

def ExprText.isPath : ExprText → Bool
  | .path _ => true
  | _ => false

/-- The parse function an expression belongs to, counted from `parse_range`: casts are at 11, unary
operators at 12, postfix forms at 14, and what `parse_primary` reads at 15. -/
def ExprText.level : ExprText → Nat
  | .range _ _ _ => 0
  | .binary op _ _ => opLevel op
  | .cast _ _ => 11
  | .unary _ _ | .borrow _ _ => 12
  | .call callee _ _ => if callee.isPath then 15 else 14
  | .methodCall _ _ _ _ | .field _ _ | .index _ _ | .question _ => 14
  | _ => 15

/-- The level at which a token is taken as an operator. -/
def takenAt : TokenKind → Option Nat
  | .dotDot | .dotDotEq | .dotDotLess => some 0
  | .pipePipe => some 1
  | .ampAmp => some 2
  | .eqEq | .bangEq | .greater | .less | .greaterEq | .lessEq => some 3
  | .pipe => some 4
  | .caret => some 5
  | .amp => some 6
  | .lessLess | .greaterGreater => some 7
  | .plus | .minus => some 8
  | .star | .slash | .percent => some 9
  | .starStar => some 10
  | .as => some 11
  | .lParen | .dot | .lBracket | .question => some 14
  | _ => none

/-- No parse function from this level on takes a token of this kind after an operand. -/
def freeAt (level : Nat) (k : TokenKind) : Bool :=
  match takenAt k with
  | none => true
  | some taken => decide (taken < level)

/-! ## What may follow -/

/-- The last part of an expression does not run into a token of this kind. -/
def ExprText.ends (allow : Bool) (k : TokenKind) : ExprText → Bool
  | .path _ => k != .colonColon && k != .lParen && !(allow && k == .lBrace)
  | .field _ name => indexName name || k != .lParen
  | .unary _ inner | .borrow _ inner => inner.ends allow k
  | .binary _ _ rhs => rhs.ends allow k
  | .cast _ type => type.stops k
  | .ifExpr _ _ elseBlock => elseBlock.isSome || k != .else
  | .returnExpr none => k == .semicolon || k == .rBrace || k == .eof
  | .returnExpr (some value) => freeAt 0 k && value.ends allow k
  | .range _ op none => op == .dotDot || Input.endsRange k
  | .range _ _ (some stop) => stop.ends allow k
  | _ => true

def ExprText.boundEnds (allow : Bool) (k : TokenKind) : Option ExprText → Bool
  | none => true
  | some expr => expr.ends allow k

def ArmText.pattern : ArmText → PatternText
  | .mk pattern _ _ => pattern

def ArmText.body : ArmText → ExprText
  | .mk _ body _ => body

def ArmText.separators : ArmText → List Bool
  | .mk _ _ separators => separators

/-- What comes after an arm or a statement of a list: its own separator, or the brace. -/
def ArmText.nextKind : ArmText → TokenKind
  | .mk _ _ (comma :: _) => (separatorText comma).kind
  | .mk _ _ [] => .rBrace

def LineText.nextKind : LineText → TokenKind
  | .mk _ 0 => .rBrace
  | .mk _ (_ + 1) => .semicolon

mutual

/-- The text agrees with the way the parser reads it, where struct literals are allowed or not. -/
def ExprText.legible (allow : Bool) : ExprText → Bool
  | .literal _ _ | .path _ | .breakExpr | .continueExpr => true
  | .struct _ fields trailing base =>
    allow && FieldText.listLegible allow (trailing || base.isSome) fields &&
      ExprText.optionLegible allow .rBrace base
  | .tuple elements trailing =>
    !elements.isEmpty &&
      ExprText.listLegible allow .rParen (trailing || elements.length == 1) elements
  | .paren inner => inner.legible allow && inner.ends allow .rParen
  | .unary _ inner | .borrow _ inner => decide (12 ≤ inner.level) && inner.legible allow
  | .binary op lhs rhs =>
    decide (leftLevel op ≤ lhs.level) && lhs.legible allow && lhs.ends allow (binaryToken op) &&
      decide (rightLevel op ≤ rhs.level) && rhs.legible allow
  | .cast inner type =>
    decide (12 ≤ inner.level) && inner.legible allow && inner.ends allow .as && type.legible
  | .call callee args trailing =>
    (callee.isPath || decide (14 ≤ callee.level) && callee.legible allow &&
      callee.ends allow .lParen) && ExprText.listLegible allow .rParen trailing args
  | .methodCall receiver _ args trailing =>
    decide (14 ≤ receiver.level) && receiver.legible allow && receiver.ends allow .dot &&
      ExprText.listLegible allow .rParen trailing args
  | .field receiver _ =>
    decide (14 ≤ receiver.level) && receiver.legible allow && receiver.ends allow .dot
  | .index receiver place =>
    decide (14 ≤ receiver.level) && receiver.legible allow && receiver.ends allow .lBracket &&
      place.legible allow && place.ends allow .rBracket
  | .question inner =>
    decide (14 ≤ inner.level) && inner.legible allow && inner.ends allow .question
  | .ifExpr cond thenBlock elseBlock =>
    cond.legible allow && thenBlock.legible allow && BlockText.optionLegible allow elseBlock
  | .matchExpr scrutinee arms =>
    scrutinee.legible false && scrutinee.ends false .lBrace && ArmText.listLegible allow arms
  | .loop body => body.legible allow
  | .whileExpr cond body => cond.legible allow && body.legible allow
  | .block body => body.legible allow
  | .returnExpr none => true
  | .returnExpr (some value) => value.legible allow
  | .range start op stop =>
    ExprText.boundLegible allow start && ExprText.boundEnds allow op.token start &&
      (stop.isNone || op != .dotDot) && ExprText.boundLegible allow stop

def ExprText.listLegible (allow : Bool) (close : TokenKind) (trailing : Bool) :
    List ExprText → Bool
  | [] => true
  | expr :: exprs =>
    expr.legible allow && expr.ends allow (if exprs.isEmpty && !trailing then close else .comma) &&
      ExprText.listLegible allow close trailing exprs

def ExprText.optionLegible (allow : Bool) (k : TokenKind) : Option ExprText → Bool
  | none => true
  | some expr => expr.legible allow && expr.ends allow k

/-- The ends of a range are read above the ranges. -/
def ExprText.boundLegible (allow : Bool) : Option ExprText → Bool
  | none => true
  | some expr => decide (1 ≤ expr.level) && expr.legible allow

def FieldText.listLegible (allow trailing : Bool) : List FieldText → Bool
  | [] => true
  | field :: fields =>
    field.legible allow (if fields.isEmpty && !trailing then .rBrace else .comma) &&
      FieldText.listLegible allow trailing fields

def FieldText.legible (allow : Bool) (k : TokenKind) : FieldText → Bool
  | .mk _ value => value.legible allow && value.ends allow k

/-- A plain condition is read without struct literals, a pattern condition is not; which one it is
depends on what `scan_lead` finds before the brace. -/
def CondText.legible (allow : Bool) : CondText → Bool
  | .pattern lhs init =>
    lhs.legible && passed lhs.lexemes && init.legible allow && init.ends allow .lBrace
  | .value inner =>
    inner.legible false && inner.ends false .lBrace && scan inner.lexemes 0 != .found .decl

def ArmText.legible (allow : Bool) (k : TokenKind) : ArmText → Bool
  | .mk pattern body _ => pattern.legible && body.legible allow && body.ends allow k

def ArmText.listLegible (allow : Bool) : List ArmText → Bool
  | [] => true
  | arm :: arms =>
    arm.legible allow arm.nextKind && (arms.isEmpty || arm.nextKind != .rBrace) &&
      ArmText.listLegible allow arms

def BlockText.legible (allow : Bool) : BlockText → Bool
  | .mk lines => LineText.listLegible allow lines

def BlockText.optionLegible (allow : Bool) : Option BlockText → Bool
  | none => true
  | some block => block.legible allow

def LineText.listLegible (allow : Bool) : List LineText → Bool
  | [] => true
  | line :: lines =>
    line.legible allow line.nextKind && (lines.isEmpty || line.nextKind != .rBrace) &&
      LineText.listLegible allow lines

def LineText.legible (allow : Bool) (k : TokenKind) : LineText → Bool
  | .mk stmt _ => stmt.legible allow k

/-- `scan_lead` has to find out what a statement is. -/
def StmtText.legible (allow : Bool) (k : TokenKind) : StmtText → Bool
  | .decl pattern type init =>
    pattern.legible && passed pattern.lexemes &&
      type.all (fun type => type.legible && type.stops .colonEq) &&
      init.legible allow && init.ends allow k
  | .reassign place op value =>
    place.legible allow && place.ends allow op.token && passed place.lexemes &&
      value.legible allow && value.ends allow k
  | .expr value =>
    value.legible allow && value.ends allow k && scan value.lexemes 0 != .found .decl

end

end Alcy.Parser
