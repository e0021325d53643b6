import Alcy.Analyzer.Exhaustive

/-! # Checking expressions, one kind at a time

The functions of `src/analyzer/types.cc` that check one kind of expression. Each gets its
subexpressions as operands: the expression, and `check_expr` on it.
-/
namespace Alcy.Analyzer.Bodies
open Alcy.Ast Alcy.Diag Alcy.Ir Alcy.Analyzer.Types

/-- A subexpression. `check` is `check_expr` with the expected type, if there is one. -/
structure Operand where
  expr : Expr
  check : Option TypeIdx → BodyM TypeIdx

def Operand.span (operand : Operand) : Span := operand.expr.span

/-- Operands that are checked for their own sake. -/
def checkAll (args : List Operand) : BodyM Unit :=
  args.forM fun arg => do
    let _ ← arg.check none

/-- An operand that is compared with a type. -/
def checkAgainst (type : TypeIdx) (what : String) (operand : Operand) : BodyM Unit := do
  let actual ← operand.check (some type)
  let _ ← unify type actual operand.span what

variable (p : Package)

/-! ## Paths and calls -/

def needsArguments (span : Span) : BodyM TypeIdx :=
  reject kAnalyzerInvalidOperation span "callee needs arguments"

def cannotInfer : String := "cannot infer the blessed type; add an annotation"

/-- `None` as a value: the expectation selects the instantiation. -/
def checkNone (expected : Option TypeIdx) (span : Span) : BodyM TypeIdx :=
  match expected with
  | none => reject kAnalyzerInvalidOperation span cannotInfer
  | some type => do
    match ← blessedFind type with
    | some entry =>
      if !entry.isResult then return type
      else reject kAnalyzerInvalidOperation span cannotInfer
    | none => reject kAnalyzerInvalidOperation span cannotInfer

/-- `check_path_expr` -/
def checkPathExpr (module : Nat) (path : Path) (expected : Option TypeIdx) (span : Span) :
    BodyM TypeIdx := do
  match ← resolveValuePath p module path with
  | none => errorType
  | some (.localVar type) | some (.static type) | some (.unitVariant _ type) =>
    unifyExpected expected type span "path"
  | some (.function _) | some (.assocFunction _) | some (.tupleVariant _ _) => needsArguments span
  | some (.blessedCtor _ _ name) =>
    if name ≠ "None" then needsArguments span else checkNone expected span
  | some .type => reject kAnalyzerInvalidOperation span "expected a value, found a type"

/-- The difference of two `usize`. -/
def usizeSub (a b : Nat) : Nat := (a + 2 ^ 64 - b) % 2 ^ 64

/-- `fixed`: how many parameters the arguments leave out. -/
def fixedParams (skipFirst : Bool) : Nat := if skipFirst then 1 else 0

/-- The number of parameters that the arity error shows. -/
def shownArity (skipFirst : Bool) (params : List TypeIdx) : Nat :=
  usizeSub params.length (fixedParams skipFirst)

/-- The arity check: each argument with the parameter that it is checked against, or nothing. -/
def pairArgs (skipFirst : Bool) (args : List Operand) (params : List TypeIdx) :
    Option (List (Operand × TypeIdx)) :=
  if args.length + fixedParams skipFirst ≠ params.length then none
  else some (args.zip (params.drop (fixedParams skipFirst)))

/-- `check_call_args` -/
def checkCallArgs (args : List Operand) (params : List TypeIdx) (span : Span) (what : String)
    (skipFirst : Bool) : BodyM Unit :=
  match pairArgs skipFirst args params with
  | none =>
    report kAnalyzerArityError span ("'" ++ what ++ "' expects " ++
      toString (shownArity skipFirst params) ++ " arguments, found " ++ toString args.length)
  | some pairs => pairs.forM fun pair => checkAgainst pair.2 "argument" pair.1

/-- `print` and `panic`, unless something in scope has the name. -/
def builtin (st : BodyState) (module : Nat) (path : Path) : Option String :=
  (singleSegment path).filter fun name =>
    (st.context.lookupLocal name).isNone && (lookupValue p st.check.modules module name).isNone &&
      (name = "print" || name = "panic")

/-- A call that takes one string. -/
def oneString (name what : String) (args : List Operand) (span : Span) (rest : BodyM TypeIdx) :
    BodyM TypeIdx :=
  match args with
  | [arg] => do
    checkAgainst (primitiveIdx .str) what arg
    rest
  | _ => reject kAnalyzerArityError span ("'" ++ name ++ "' expects 1 argument, found " ++
      toString args.length)

def checkBuiltin (name : String) (args : List Operand) (expected : Option TypeIdx) (span : Span) :
    BodyM TypeIdx :=
  if name = "print" then
    oneString name "print argument" args span
      (unifyExpected expected (primitiveIdx .void) span "call")
  else oneString name "panic argument" args span neverType

/-- A rejected call, whose arguments are checked nevertheless. -/
def rejectCall (code : Nat) (span : Span) (message : String) (args : List Operand) :
    BodyM TypeIdx := do
  report code span message
  checkAll args
  errorType

/-- The arguments of a variant constructor against the payload. -/
def checkCtorArgs (payloads : List TypeIdx) (enumType : TypeIdx) (args : List Operand)
    (expected : Option TypeIdx) (span : Span) : BodyM TypeIdx :=
  if args.length ≠ payloads.length then
    rejectCall kAnalyzerArityError span ("variant expects " ++ toString payloads.length ++
      " arguments, found " ++ toString args.length) args
  else do
    (args.zip payloads).forM fun pair => checkAgainst pair.2 "variant argument" pair.1
    unifyExpected expected enumType span "call"

/-- The instantiation of a blessed constructor: the expected type's, or the first of its kind. -/
def ctorInstance (expected : Option TypeIdx) (blessed : Option BlessedEntry) :
    BodyM (Option BlessedEntry) :=
  match expected with
  | none => return blessed
  | some type => do
    match ← blessedFind type with
    | some entry => return some entry
    | none => return blessed

/-- A call of `Ok`, `Err`, `Some` or `None`. -/
def checkBlessedCall (blessed : Option BlessedEntry) (first : Bool) (name : String)
    (args : List Operand) (expected : Option TypeIdx) (span : Span) : BodyM TypeIdx := do
  match ← ctorInstance expected blessed with
  | none => rejectCall kAnalyzerInvalidOperation span cannotInfer args
  | some entry =>
    if (name = "Ok" || name = "Err") ≠ entry.isResult then
      reject kAnalyzerTypeMismatch span ("'" ++ name ++ "' is not a variant of '" ++
        (if entry.isResult then "Option" else "Result") ++ "'")
    else
      let payloads ← variantPayloads p (.blessedCtor blessed first name) entry.type span
      checkCtorArgs payloads entry.type args expected span

/-- A call through what the callee's path resolves to. -/
def checkResolvedCall (resolved : PathValue) (args : List Operand) (expected : Option TypeIdx)
    (span : Span) : BodyM TypeIdx :=
  match resolved with
  | .function found => do
    checkCallArgs args found.entry.params span found.entry.name false
    unifyExpected expected found.entry.ret span "call"
  | .assocFunction method => do
    checkCallArgs args method.sig.params span method.sig.name true
    unifyExpected expected method.sig.ret span "call"
  | .tupleVariant found enumType => do
    let payloads ← variantPayloads p (.tupleVariant found enumType) enumType span
    checkCtorArgs payloads enumType args expected span
  | .blessedCtor blessed first name => checkBlessedCall p blessed first name args expected span
  | _ => rejectCall kAnalyzerInvalidOperation span "not callable" args

/-- `check_call` -/
def checkCall (module : Nat) (callee : Expr) (args : List Operand) (expected : Option TypeIdx)
    (span : Span) : BodyM TypeIdx :=
  match callee with
  | .path _ path => do
    let st ← get
    match builtin p st module path with
    | some name => checkBuiltin name args expected span
    | none =>
      match ← resolveValuePath p module path with
      | none =>
        checkAll args
        errorType
      | some resolved => checkResolvedCall p resolved args expected span
  | callee => rejectCall kAnalyzerInvalidOperation callee.span "cannot call a non-path expression" args

/-! ## Method calls -/

/-- The methods that `Result` and `Option` have without a declaration. -/
def isBlessedMethod (name : String) : Bool :=
  name = "unwrap" || name = "expect" || name = "is_ok" || name = "is_err"

def noArguments (name : String) (args : List Operand) (span : Span) (rest : BodyM TypeIdx) :
    BodyM TypeIdx :=
  if args.isEmpty then rest
  else reject kAnalyzerArityError span ("'" ++ name ++ "' expects 0 arguments, found " ++
    toString args.length)

def checkBlessedMethod (entry : BlessedEntry) (name : String) (args : List Operand)
    (expected : Option TypeIdx) (span : Span) : BodyM TypeIdx := do
  let ok ← read fun _ => entry.args[0]?
  if name = "unwrap" then
    noArguments name args span (unifyExpected expected ok span "method call")
  else if name = "expect" then
    oneString name "expect argument" args span (unifyExpected expected ok span "method call")
  else noArguments name args span (unifyExpected expected (primitiveIdx .i1) span "method call")

/-- The type whose methods a receiver has: a reference is seen through once. -/
def receiverNominal (receiver : TypeIdx) : BodyM TypeIdx := do
  let tag ← tagOf receiver
  if tag = .ref ∨ tag = .mutRef then pointeeOf receiver else return receiver

/-- Whether an owned receiver is borrowed for the declared one. -/
def coercesTo (receiver declared : TypeIdx) : BodyM Bool := do
  let tag ← tagOf receiver
  let declaredTag ← tagOf declared
  if tag ≠ .ref ∧ tag ≠ .mutRef ∧ (declaredTag = .ref ∨ declaredTag = .mutRef) then
    return (← pointeeOf declared) = receiver
  else return false

def acceptsReceiver (receiver declared : TypeIdx) : BodyM Bool :=
  if receiver = declared then return true else coercesTo receiver declared

/-- A call of a declared method. -/
def checkMethod (method : MethodInfo) (receiver : TypeIdx) (receiverSpan : Span) (name : Ident)
    (args : List Operand) (expected : Option TypeIdx) (span : Span) : BodyM TypeIdx := do
  if method.receiver = .none then
    reject kAnalyzerInvalidOperation name.span
      ("associated function '" ++ name.name ++ "' called as a method")
  else
    let declared ← read fun _ => method.sig.params[0]?
    if ← acceptsReceiver receiver declared then
      checkCallArgs args method.sig.params.tail span name.name false
      unifyExpected expected method.sig.ret span "method call"
    else reject kAnalyzerTypeMismatch receiverSpan "type mismatch in receiver"

/-- The blessed entry whose built-in method the name is. -/
def blessedReceiver (receiver : TypeIdx) (name : String) : BodyM (Option BlessedEntry) := do
  return (← blessedFind receiver).filter fun _ => isBlessedMethod name

/-- `check_method_call` -/
def checkMethodCall (receiver : Operand) (name : Ident) (args : List Operand)
    (expected : Option TypeIdx) (span : Span) : BodyM TypeIdx := do
  let type ← receiver.check none
  if ← isError type then
    checkAll args
    errorType
  else
    match ← blessedReceiver type name.name with
    | some entry => checkBlessedMethod entry name.name args expected span
    | none =>
      let nominal ← receiverNominal type
      let st ← get
      match lookupMethod p st.check.modules nominal name.name with
      | none => rejectCall kAnalyzerUnknownValue name.span ("no method '" ++ name.name ++ "'") args
      | some method => checkMethod method type receiver.span name args expected span

/-! ## Fields, literals of structs and tuples -/

/-- The loop that sees through references. -/
def derefAll (s : Storage) : Nat → TypeIdx → Option TypeIdx
  | 0, _ => none
  | fuel + 1, idx => do
    let node ← s.types[idx]?
    if node.tag = .ref ∨ node.tag = .mutRef then
      let row ← s.refTypes[node.data]?
      derefAll s fuel row.pointee
    else return idx

/-- The place of a field in the struct that owns the type. -/
def ownedField (nominals : List NominalEntry) (receiver : TypeIdx) (name : String) : Option Nat :=
  nominals.findSome? fun entry =>
    if entry.complete && entry.type = receiver then
      match entry.item with
      | .struct decl => fieldIndex decl name
      | .enum _ => none
    else none

/-- The number of a tuple field, computed in a `u32`; nothing when a character is no digit. -/
def tupleIndex (name : String) : Option UInt32 :=
  if name.toList.isEmpty || name.toList.any (fun c => c < '0' || '9' < c) then none
  else some (name.toList.foldl (fun index c => index * 10 + UInt32.ofNat (c.toNat - '0'.toNat)) 0)

def checkStructField (receiver : TypeIdx) (name : Ident) (expected : Option TypeIdx)
    (span : Span) : BodyM TypeIdx := do
  let fields ← structFields receiver
  let st ← get
  match ownedField st.check.table.nominals receiver name.name with
  | none => reject kAnalyzerUnknownValue name.span ("unknown field '" ++ name.name ++ "'")
  | some i => unifyExpected expected (← slot fields i) span "field"

def checkTupleField (receiver : TypeIdx) (name : Ident) (expected : Option TypeIdx)
    (span : Span) : BodyM TypeIdx := do
  let elements ← tupleElements receiver
  match (tupleIndex name.name).filter fun i => i.toNat < elements.size with
  | none => reject kAnalyzerUnknownValue name.span ("unknown tuple field '" ++ name.name ++ "'")
  | some i => unifyExpected expected (← slot elements i.toNat) span "field"

/-- `check_field` -/
def checkField (receiver : Operand) (name : Ident) (expected : Option TypeIdx) (span : Span) :
    BodyM TypeIdx := do
  let type ← receiver.check none
  if ← isError type then errorType
  else
    let type ← read fun s => derefAll s (s.types.length + 1) type
    let tag ← tagOf type
    if tag = .struct then checkStructField type name expected span
    else if tag = .tuple then checkTupleField type name expected span
    else reject kAnalyzerInvalidOperation span ("no fields on '" ++ prettyTag tag ++ "'")

/-- The fields of a struct literal; `seen` says which ones have a value already. -/
def checkInits (decl : StructItem) (fields : IdxRange) :
    List (Ident × Operand) → List Bool → BodyM (List Bool)
  | [], seen => return seen
  | (name, value) :: rest, seen =>
    match fieldIndex decl name.name with
    | none => do
      unknownField name
      let _ ← value.check none
      checkInits decl fields rest seen
    | some i => do
      checkAgainst (← slot fields i) "field" value
      checkInits decl fields rest (seen.set i true)

/-- The base of a struct literal, or without one the fields that have no value. -/
def checkBase (decl : StructItem) (structType : TypeIdx) (base : Option Operand)
    (seen : List Bool) (span : Span) : BodyM Unit :=
  match base with
  | some base => do
    let type ← base.check none
    let _ ← unify structType type base.span "struct update base"
  | none => (decl.fields.zip seen).forM fun field =>
    if field.2 then return
    else report kAnalyzerArityError span ("missing field '" ++ field.1.name.name ++ "'")

/-- `check_struct_expr` -/
def checkStructExpr (module : Nat) (path : Path) (init : List (Ident × Operand))
    (base : Option Operand) (expected : Option TypeIdx) (span : Span) : BodyM TypeIdx := do
  match ← resolveStructPath p module path with
  | none =>
    checkAll (init.map (·.2))
    checkAll base.toList
    errorType
  | some e =>
    let structType ← check (intern p e)
    let decl ← structDecl e
    let fields ← structFields structType
    let seen ← checkInits decl fields init (List.replicate decl.fields.length false)
    checkBase decl structType base seen span
    unifyExpected expected structType span "struct"

/-- The expected types of the elements of a tuple. -/
def elementTypes (expected : Option TypeIdx) (count : Nat) : BodyM (Option (List TypeIdx)) :=
  match expected with
  | none => return none
  | some type => do
    if (← tagOf type) = .tuple then
      let elements ← tupleElements type
      if elements.size = count then return some elements.toList else return none
    else return none

/-- The elements of a tuple, each with its expected type when there is one. The source makes the
error type for each of them. -/
def checkElements : List Operand → Option (List TypeIdx) → BodyM (List TypeIdx)
  | [], _ => return []
  | element :: rest, types => do
    let _ ← errorType
    let type ← element.check (types.bind (·.head?))
    let idxs ← checkElements rest (types.map (·.tail))
    return type :: idxs

def checkTuple (elements : List Operand) (expected : Option TypeIdx) (span : Span) :
    BodyM TypeIdx :=
  if elements.isEmpty then unifyExpected expected (primitiveIdx .void) span "unit"
  else do
    let types ← elementTypes expected elements.length
    let idxs ← checkElements elements types
    let range ← check (build (StorageBuilder.copySeq idxs))
    let type ← check (build (StorageBuilder.tupleType range))
    unifyExpected expected type span "tuple"

end Alcy.Analyzer.Bodies
