import Alcy.Analyzer.Operands

/-! # Checking expressions, blocks and statements

The rest of the kinds of expressions in `src/analyzer/types.cc`, those that open scopes among them,
and the recursion that ties all of them together.
-/
namespace Alcy.Analyzer.Bodies
open Alcy.Ast Alcy.Diag Alcy.Ir Alcy.Analyzer.Types

/-! ## Operators -/

def unaryFits (op : UnaryOp) (tag : TypeTag) : Bool :=
  match op with
  | .neg => isIntegerTag tag || isFloatTag tag
  | .not => tag = .i1
  | .bitNot => isIntegerTag tag

def unaryWhat : UnaryOp → String
  | .neg => "negation"
  | .not => "not"
  | .bitNot => "bitwise not"

def checkUnary (op : UnaryOp) (inner : Operand) (expected : Option TypeIdx) (span : Span) :
    BodyM TypeIdx := do
  let type ← inner.check none
  if ← isError type then errorType
  else
    let tag ← tagOf type
    if unaryFits op tag then unifyExpected expected type span (unaryWhat op)
    else reject kAnalyzerInvalidOperation span ("invalid unary operand '" ++ prettyTag tag ++ "'")

def checkBorrow (isMut : Bool) (inner : Operand) (expected : Option TypeIdx) (span : Span) :
    BodyM TypeIdx := do
  let pointee ← inner.check none
  if ← isError pointee then errorType
  else
    let type ← check (build (StorageBuilder.referenceType pointee isMut))
    unifyExpected expected type span "borrow"

/-- `is_bare_int_literal` -/
def isBareIntLiteral : Expr → Bool
  | .literal _ value => value.kind = .integer && value.spelling.toList.all fun c => !isAlpha c
  | _ => false

/-- A bare integer literal takes the type of the other operand. -/
def coerceLiteral (lhs rhs : Operand) (left right : TypeIdx) : BodyM (TypeIdx × TypeIdx) := do
  let leftTag ← tagOf left
  let rightTag ← tagOf right
  if isIntegerTag rightTag && isBareIntLiteral lhs.expr then
    let left ← lhs.check (some right)
    return (left, right)
  else if isIntegerTag leftTag && isBareIntLiteral rhs.expr then
    let right ← rhs.check (some left)
    return (left, right)
  else return (left, right)

/-- Whether `check_binary_operands` looks for a literal to coerce. -/
def operandsDiffer (left right : TypeIdx) : BodyM Bool := do
  if ← read (typesEqual · left right) then return false
  else if ← isError left then return false
  else return !(← isError right)

def coerceOperands (lhs rhs : Operand) (left right : TypeIdx) : BodyM (TypeIdx × TypeIdx) := do
  if ← operandsDiffer left right then coerceLiteral lhs rhs left right else return (left, right)

/-- The common type of two operands. -/
def operandType (left right : TypeIdx) (span : Span) (what : String) : BodyM TypeIdx := do
  if ← isError left then return right
  else if ← isError right then return left
  else if ← read (typesEqual · left right) then return left
  else
    let leftTag ← tagOf left
    let rightTag ← tagOf right
    reject kAnalyzerTypeMismatch span ("type mismatch in " ++ what ++ ": '" ++
      prettyTag leftTag ++ "' vs '" ++ prettyTag rightTag ++ "'")

/-- `check_binary_operands` -/
def checkBinaryOperands (lhs rhs : Operand) (span : Span) (what : String) : BodyM TypeIdx := do
  let left ← lhs.check none
  let right ← rhs.check none
  let types ← coerceOperands lhs rhs left right
  operandType types.1 types.2 span what

def checkLogical (lhs rhs : Operand) (expected : Option TypeIdx) (span : Span) : BodyM TypeIdx := do
  let boolean := primitiveIdx .i1
  let left ← lhs.check (some boolean)
  let right ← rhs.check (some boolean)
  let _ ← unify boolean left lhs.span "logical operand"
  let _ ← unify boolean right rhs.span "logical operand"
  unifyExpected expected boolean span "logical"

def isEquality (op : BinaryOp) : Bool := op = .eq || op = .notEq

def isOrdering (op : BinaryOp) : Bool := op = .gt || op = .lt || op = .gtEq || op = .ltEq

/-- A binary expression that is not a logical one. -/
def checkArithmetic (op : BinaryOp) (lhs rhs : Operand) (expected : Option TypeIdx)
    (span : Span) : BodyM TypeIdx := do
  let operands ← checkBinaryOperands lhs rhs span "binary"
  if ← isError operands then errorType
  else
    let tag ← tagOf operands
    if isEquality op then unifyExpected expected (primitiveIdx .i1) span "comparison"
    else if isIntegerTag tag || isFloatTag tag then
      if isOrdering op then unifyExpected expected (primitiveIdx .i1) span "comparison"
      else unifyExpected expected operands span "arithmetic"
    else reject kAnalyzerInvalidOperation span ("invalid binary operand '" ++ prettyTag tag ++ "'")

def checkBinary (op : BinaryOp) (lhs rhs : Operand) (expected : Option TypeIdx) (span : Span) :
    BodyM TypeIdx :=
  if op = .and ∨ op = .or then checkLogical lhs rhs expected span
  else checkArithmetic op lhs rhs expected span

variable (p : Package)

def isNumericTag (tag : TypeTag) : Bool := isIntegerTag tag || isFloatTag tag || tag = .i1

/-- `check_cast` -/
def checkCast (module : Nat) (inner : Operand) (type : Ty) (expected : Option TypeIdx)
    (span : Span) : BodyM TypeIdx := do
  let source ← inner.check none
  let target ← check (resolveType p (intern p) module none type)
  if ← isError source then errorType
  else if ← isError target then errorType
  else
    let fromTag ← tagOf source
    let toTag ← tagOf target
    if fromTag = .never || (isNumericTag fromTag && isNumericTag toTag) then
      unifyExpected expected target span "cast"
    else
      reject kAnalyzerInvalidOperation span
        ("invalid cast from '" ++ prettyTag fromTag ++ "' to '" ++ prettyTag toTag ++ "'")

/-- `check_index` -/
def checkIndex (receiver index : Operand) (expected : Option TypeIdx) (span : Span) :
    BodyM TypeIdx := do
  let type ← receiver.check none
  let position ← index.check none
  if ← isError type then errorType
  else if ← isError position then errorType
  else if !isIntegerTag (← tagOf position) then
    reject kAnalyzerTypeMismatch index.span "array index must be an integer"
  else
    let tag ← tagOf type
    if tag ≠ .array then
      reject kAnalyzerInvalidOperation span ("cannot index '" ++ prettyTag tag ++ "'")
    else unifyExpected expected (← arrayElement type) span "index"

/-- Whether the arguments of two instantiations are the same types. -/
def sameArgs (s : Storage) (scrutinee enclosing : BlessedEntry) : Option Bool :=
  if scrutinee.isResult ≠ enclosing.isResult ∨ scrutinee.args.length ≠ enclosing.args.length then
    some false
  else (scrutinee.args.zip enclosing.args).allM fun pair => typesEqual s pair.1 pair.2

/-- `check_question` -/
def checkQuestion (inner : Operand) (expected : Option TypeIdx) (span : Span) :
    BodyM TypeIdx := do
  let type ← inner.check none
  match ← blessedFind type with
  | none => reject kAnalyzerBadQuestion span "'?' needs Result or Option"
  | some scrutinee =>
    let st ← get
    match findBlessed st.check.table st.context.fnRet with
    | none => reject kAnalyzerBadQuestion span "'?' needs an enclosing Result or Option function"
    | some enclosing =>
      if ← read (sameArgs · scrutinee enclosing) then
        unifyExpected expected (← read fun _ => scrutinee.args[0]?) span "'?'"
      else reject kAnalyzerBadQuestion span "'?' type does not match the function return type"

/-! ## Conditions and branches -/

/-- `ast::Cond` with its expression as an operand. -/
inductive CondOperand where
  | pattern (pattern : Pattern) (init : Operand)
  | value (value : Operand)

/-- `check_cond`: whether it has pushed the scope of a pattern. -/
def checkCond (module : Nat) : CondOperand → BodyM Bool
  | .pattern pattern init => do
    let type ← init.check none
    pushScope
    let _ ← bindPattern p module pattern type
    return true
  | .value value => do
    checkAgainst (primitiveIdx .i1) "condition" value
    return false

/-- `scopes.pop_back()` when the condition has bound a pattern. -/
def popIf (binds : Bool) : BodyM Unit := if binds then popScope else return

/-- A block, as `check_block` on it. -/
abbrev BlockOperand := Option TypeIdx → BodyM TypeIdx

/-- An `if` without `else`. -/
def checkNoElse (thenType : TypeIdx) (expected : Option TypeIdx) (span : Span) :
    BodyM TypeIdx := do
  let tag ← tagOf thenType
  if tag ≠ .void ∧ tag ≠ .error ∧ tag ≠ .never then
    report kAnalyzerTypeMismatch span "if without else yields '()'"
    unifyExpected expected (primitiveIdx .void) span "if"
  else unifyExpected expected (primitiveIdx .void) span "if"

/-- `check_if` -/
def checkIf (module : Nat) (cond : CondOperand) (thenBlock : BlockOperand)
    (elseBlock : Option BlockOperand) (expected : Option TypeIdx) (span : Span) :
    BodyM TypeIdx := do
  let binds ← checkCond p module cond
  let thenType ← thenBlock expected
  popIf binds
  match elseBlock with
  | none => checkNoElse thenType expected span
  | some elseBlock =>
    let otherwise ← elseBlock expected
    unify thenType otherwise span "if branches"

/-- One arm of a match. -/
structure Arm where
  pattern : Pattern
  body : Operand

/-- The locals of an arm. Against a scrutinee without a type the source binds none. -/
def bindArm (module : Nat) (pattern : Pattern) (scrutinee : TypeIdx) : BodyM Unit := do
  if ← isError scrutinee then return
  else
    let _ ← bindPattern p module pattern scrutinee

def checkArm (module : Nat) (scrutinee : TypeIdx) (expected : Option TypeIdx) (arm : Arm) :
    BodyM TypeIdx := do
  pushScope
  bindArm p module arm.pattern scrutinee
  let body ← arm.body.check expected
  popScope
  return body

/-- The type of the arms so far, joined with the next one. -/
def joinArm (module : Nat) (scrutinee : TypeIdx) (expected : Option TypeIdx)
    (result : Option TypeIdx) (arm : Arm) : BodyM (Option TypeIdx) := do
  let body ← checkArm p module scrutinee expected arm
  match result with
  | none => return some body
  | some result => return some (← unify result body arm.body.span "match arms")

/-- The exhaustiveness check, for a scrutinee that has a type. -/
def checkCoverage (scrutinee : TypeIdx) (arms : List Arm) (span : Span) : BodyM Unit := do
  if ← isError scrutinee then return
  else checkExhaustive scrutinee (arms.map (·.pattern)) span

/-- `check_match` -/
def checkMatch (module : Nat) (scrutinee : Operand) (arms : List Arm)
    (expected : Option TypeIdx) (span : Span) : BodyM TypeIdx := do
  let type ← scrutinee.check none
  let placeholder ← errorType
  let result ← arms.foldlM (joinArm p module type expected) none
  checkCoverage type arms span
  match result with
  | none => return placeholder
  | some result => unifyExpected expected result span "match"

/-! ## Loops, blocks and jumps -/

/-- A block inside one more loop. -/
def inLoop (body : BlockOperand) : BodyM Unit := do
  modifyContext fun context => { context with loopDepth := context.loopDepth + 1 }
  let _ ← body (some (primitiveIdx .void))
  modifyContext fun context => { context with loopDepth := context.loopDepth - 1 }

def checkLoop (body : BlockOperand) (expected : Option TypeIdx) (span : Span) :
    BodyM TypeIdx := do
  inLoop body
  unifyExpected expected (primitiveIdx .void) span "loop"

def checkWhile (module : Nat) (cond : CondOperand) (body : BlockOperand)
    (expected : Option TypeIdx) (span : Span) : BodyM TypeIdx := do
  let binds ← checkCond p module cond
  inLoop body
  popIf binds
  unifyExpected expected (primitiveIdx .void) span "while"

/-- What a block yields. -/
def blockValue (value : Option Operand) (expected : Option TypeIdx) (span : Span) :
    BodyM TypeIdx :=
  match value with
  | none => unifyExpected expected (primitiveIdx .void) span "block"
  | some value => do
    let type ← value.check expected
    unifyExpected expected type value.span "block"

/-- `check_block` -/
def checkBlock (statements : BodyM Unit) (value : Option Operand) (expected : Option TypeIdx)
    (span : Span) : BodyM TypeIdx := do
  pushScope
  statements
  let result ← blockValue value expected span
  popScope
  return result

/-- The returned value against the return type of the function. -/
def checkReturned (value : Option Operand) (span : Span) : BodyM Unit := do
  let st ← get
  match value with
  | none =>
    let _ ← unify st.context.fnRet (primitiveIdx .void) span "return"
  | some value => checkAgainst st.context.fnRet "return" value

def checkReturn (value : Option Operand) (span : Span) : BodyM TypeIdx := do
  let st ← get
  if st.context.inFn then
    checkReturned value span
    neverType
  else reject kAnalyzerBadReturn span "'ret' outside of a function"

/-- `break` and `continue`. -/
def checkJump (name : String) (span : Span) : BodyM TypeIdx := do
  let st ← get
  if st.context.loopDepth = 0 then
    reject kAnalyzerBreakOutsideLoop span ("'" ++ name ++ "' outside of a loop")
  else neverType

/-! ## Places and statements -/

/-- `check_place` for a path. -/
def checkPlacePath (module : Nat) (path : Path) (span : Span) : BodyM TypeIdx := do
  match ← resolveValuePath p module path with
  | none => errorType
  | some (.localVar _) =>
    let st ← get
    match (path.segments.getLast?).bind fun last => st.context.lookupLocal last.name with
    | none => reject kAnalyzerBadAssignment span "cannot assign to an immutable binding"
    | some entry =>
      if entry.isMut then return entry.type
      else reject kAnalyzerBadAssignment span "cannot assign to an immutable binding"
  | some _ => reject kAnalyzerBadAssignment span "cannot assign to this place"

/-- `check_place` for a field; `place` is `check_place` on the receiver. -/
def checkPlaceField (place : BodyM TypeIdx) (receiver : Operand) (name : Ident) (span : Span) :
    BodyM TypeIdx := do
  let type ← place
  if ← isError type then errorType
  else if (← tagOf type) ≠ .struct then errorType
  else checkField receiver name none span

/-- `check_place` for an index. -/
def checkPlaceIndex (place : BodyM TypeIdx) (receiver index : Operand) (span : Span) :
    BodyM TypeIdx := do
  let type ← place
  if ← isError type then errorType else checkIndex receiver index none span

/-- The type of a declaration, if it has one. -/
def ascribedType (module : Nat) (type : Option Ty) : BodyM (Option TypeIdx) :=
  match type with
  | none => return none
  | some type => return some (← check (resolveType p (intern p) module none type))

def reportRefutable (refutable : Bool) (span : Span) (message : String) : BodyM Unit :=
  if refutable then report kAnalyzerRefutableLet span message else return

/-- A declaration. -/
def checkDecl (module : Nat) (pattern : Pattern) (type : Option Ty) (init : Operand) :
    BodyM Unit := do
  let _ ← errorType
  let expected ← ascribedType p module type
  let actual ← init.check expected
  let _ ← unifyExpected expected actual init.span "declaration"
  let refutable ← bindPattern p module pattern actual
  reportRefutable refutable pattern.span "refutable pattern in declaration; use match"

/-- Whether a compound assignment has a place without a number. -/
def notNumeric (compound : Bool) (type : TypeIdx) : BodyM Bool :=
  if compound then return !(isIntegerTag (← tagOf type) || isFloatTag (← tagOf type))
  else return false

/-- A reassignment; `place` is `check_place`. -/
def checkReassign (place : BodyM TypeIdx) (compound : Bool) (value : Operand) (span : Span) :
    BodyM Unit := do
  let type ← place
  let actual ← value.check (some type)
  if ← notNumeric compound type then
    report kAnalyzerInvalidOperation span "compound assignment needs a numeric place"
  else
    let _ ← unify type actual value.span "assignment"

/-- An expression whose value is dropped. -/
def checkExprStmt (value : Operand) : BodyM Unit := do
  let type ← value.check none
  let tag ← tagOf type
  if tag = .void ∨ tag = .error ∨ tag = .never then return
  else if ← isMustUse type then
    warn kAnalyzerMustUse value.span "unused Result/Option value; bind or discard it explicitly"
  else
    warn kAnalyzerMustUse value.span
      "unused non-() value; discard it explicitly with \x60_ := ...\x60"

/-! ## The recursion -/

mutual

/-- `check_expr` -/
def checkExpr (module : Nat) : Expr → Option TypeIdx → BodyM TypeIdx
  | .literal _ value, expected => checkLiteral p value expected
  | .path span path, expected => checkPathExpr p module path expected span
  | .struct span path init baseExpr, expected =>
    checkStructExpr p module path (initOperands module init) (optOperand module baseExpr) expected
      span
  | .tuple span elements, expected => checkTuple (operands module elements) expected span
  | .unary span op inner, expected => checkUnary op ⟨inner, checkExpr module inner⟩ expected span
  | .borrow span isMut inner, expected =>
    checkBorrow isMut ⟨inner, checkExpr module inner⟩ expected span
  | .binary span op lhs rhs, expected =>
    checkBinary op ⟨lhs, checkExpr module lhs⟩ ⟨rhs, checkExpr module rhs⟩ expected span
  | .cast span inner type, expected =>
    checkCast p module ⟨inner, checkExpr module inner⟩ type expected span
  | .call span callee args, expected =>
    checkCall p module callee (operands module args) expected span
  | .methodCall span receiver name args, expected =>
    checkMethodCall p ⟨receiver, checkExpr module receiver⟩ name (operands module args) expected
      span
  | .field span receiver name, expected =>
    checkField ⟨receiver, checkExpr module receiver⟩ name expected span
  | .index span receiver index, expected =>
    checkIndex ⟨receiver, checkExpr module receiver⟩ ⟨index, checkExpr module index⟩ expected span
  | .question span inner, expected =>
    checkQuestion ⟨inner, checkExpr module inner⟩ expected span
  | .ifExpr span cond thenBlock elseBlock, expected =>
    checkIf p module (condOperand module cond) (blockOperand module thenBlock)
      (optBlock module elseBlock) expected span
  | .matchExpr span scrutinee arms, expected =>
    checkMatch p module ⟨scrutinee, checkExpr module scrutinee⟩ (matchArms module arms) expected
      span
  | .loop span body, expected => checkLoop (blockOperand module body) expected span
  | .whileExpr span cond body, expected =>
    checkWhile p module (condOperand module cond) (blockOperand module body) expected span
  | .block _ block, expected => blockOperand module block expected
  | .returnExpr span value, _ => checkReturn (optOperand module value) span
  | .breakExpr span, _ => checkJump "break" span
  | .continueExpr span, _ => checkJump "continue" span
  | .range span _ _ _, _ =>
    reject kAnalyzerUnsupportedExpr span "range expressions arrive post-MVP"

def operands (module : Nat) : List Expr → List Operand
  | [] => []
  | e :: rest => ⟨e, checkExpr module e⟩ :: operands module rest

/-- A pointer to an expression that may be null. -/
def optOperand (module : Nat) : Option Expr → Option Operand
  | none => none
  | some e => some ⟨e, checkExpr module e⟩

def initOperands (module : Nat) : List FieldInit → List (Ident × Operand)
  | [] => []
  | .mk name value :: rest => (name, ⟨value, checkExpr module value⟩) :: initOperands module rest

def condOperand (module : Nat) : Cond → CondOperand
  | .pattern pattern init => .pattern pattern ⟨init, checkExpr module init⟩
  | .value value => .value ⟨value, checkExpr module value⟩

def matchArms (module : Nat) : List MatchArm → List Arm
  | [] => []
  | .mk pattern body :: rest => ⟨pattern, ⟨body, checkExpr module body⟩⟩ :: matchArms module rest

def blockOperand (module : Nat) : Ast.Block → Option TypeIdx → BodyM TypeIdx
  | .mk span statements value, expected =>
    checkBlock (checkStmts module statements) (optOperand module value) expected span

/-- A pointer to a block that may be null. -/
def optBlock (module : Nat) : Option Ast.Block → Option BlockOperand
  | none => none
  | some block => some (blockOperand module block)

/-- `check_place` -/
def checkPlace (module : Nat) : Expr → BodyM TypeIdx
  | .path span path => checkPlacePath p module path span
  | .field span receiver name =>
    checkPlaceField (checkPlace module receiver) ⟨receiver, checkExpr module receiver⟩ name span
  | .index span receiver index =>
    checkPlaceIndex (checkPlace module receiver) ⟨receiver, checkExpr module receiver⟩
      ⟨index, checkExpr module index⟩ span
  | e => reject kAnalyzerBadAssignment e.span "cannot assign to this place"

/-- `check_stmt` -/
def checkStmt (module : Nat) : Stmt → BodyM Unit
  | .decl _ pattern type init => checkDecl p module pattern type ⟨init, checkExpr module init⟩
  | .reassign span place compound _ value =>
    checkReassign (checkPlace module place) compound ⟨value, checkExpr module value⟩ span
  | .expr _ value => checkExprStmt ⟨value, checkExpr module value⟩

def checkStmts (module : Nat) : List Stmt → BodyM Unit
  | [] => return
  | stmt :: rest => do
    checkStmt module stmt
    checkStmts module rest

end

end Alcy.Analyzer.Bodies
