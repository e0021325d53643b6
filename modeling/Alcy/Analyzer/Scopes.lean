import Alcy.Analyzer.Types

/-! # Checking bodies

The part of `src/analyzer/types.cc` that checks expressions works on the state of the part that
resolves types, and on a context of its own: the locals in scope, the loops around, the function.
Here are that context, the reading of types, their comparison and the literals.

A program fails in two ways: it is stuck where the resolution of types is, and it faults where the
source would take the last scope of an empty stack.
-/
namespace Alcy.Analyzer.Bodies
open Alcy.Ast Alcy.Diag Alcy.Ir Alcy.Analyzer.Types

def kAnalyzerTypeMismatch : Nat := 4220
def kAnalyzerUnknownValue : Nat := 4221
def kAnalyzerArityError : Nat := 4222
def kAnalyzerInvalidOperation : Nat := 4223
def kAnalyzerNonExhaustiveMatch : Nat := 4224
def kAnalyzerRefutableLet : Nat := 4225
def kAnalyzerMustUse : Nat := 4226
def kAnalyzerBadQuestion : Nat := 4227
def kAnalyzerBadReturn : Nat := 4228
def kAnalyzerBadAssignment : Nat := 4229
def kAnalyzerBreakOutsideLoop : Nat := 4230
def kAnalyzerUnsupportedExpr : Nat := 4231

/-! ## State -/

structure Local where
  name : String
  type : TypeIdx
  isMut : Bool
  deriving DecidableEq

/-- The body-checking state. The last of the source's scopes is the first one here. -/
structure Context where
  scopes : List (List Local)
  loopDepth : UInt32
  inFn : Bool
  fnRet : TypeIdx

/-- One call of `unify`: the types before it, and whether it emitted nothing. -/
structure Comparison where
  expected : TypeIdx
  actual : TypeIdx
  what : String
  storage : Storage
  silent : Bool

/-- `comparisons` is the history of `unify`; the source keeps no such list and nothing below reads
it. -/
structure BodyState where
  check : CheckState
  context : Context
  comparisons : List Comparison

/-- What the source leaves undefined. -/
inductive Fault where
  | stuck
  | emptyScopes
  deriving DecidableEq

abbrev BodyM := StateT BodyState (Except Fault)

/-- A program of the first half. -/
def check {α : Type} (m : CheckM α) : BodyM α := fun st =>
  match m st.check with
  | none => .error .stuck
  | some (a, check) => .ok (a, { st with check })

/-- A value that is read off the type tables. -/
def read {α : Type} (f : Storage → Option α) : BodyM α :=
  check fun st => (f st.table.storage).map fun a => (a, st)

def report (code : Nat) (span : Span) (message : String) : BodyM Unit :=
  check (Types.report code span message)

/-- A diagnostic that is no error. -/
def warn (code : Nat) (span : Span) (message : String) : BodyM Unit :=
  check (modify fun st => { st with bag := emit st.bag .warning code span message })

def errorType : BodyM TypeIdx := check Types.errorType

def neverType : BodyM TypeIdx := check (build StorageBuilder.neverType)

/-- An error, after which the type is unknown. -/
def reject (code : Nat) (span : Span) (message : String) : BodyM TypeIdx := do
  report code span message
  errorType

def modifyContext (f : Context → Context) : BodyM Unit :=
  modify fun st => { st with context := f st.context }

/-! ## Scopes -/

/-- `scopes.emplace_back()` -/
def pushScope : BodyM Unit :=
  modifyContext fun context => { context with scopes := [] :: context.scopes }

/-- `scopes.pop_back()` -/
def popScope : BodyM Unit :=
  modifyContext fun context => { context with scopes := context.scopes.tail }

/-- `scopes.back()` -/
def innermost : BodyM (List Local) := fun st =>
  match st.context.scopes with
  | [] => .error .emptyScopes
  | scope :: _ => .ok (scope, st)

/-- The context with another innermost scope. -/
def Context.withInnermost (context : Context) (scope : List Local) : Context :=
  { context with scopes := scope :: context.scopes.tail }

/-- A local at the end of `scopes.back()`. -/
def declare (new : Local) : BodyM Unit := do
  let scope ← innermost
  modifyContext fun context => context.withInnermost (scope ++ [new])

/-- `lookup_local`: innermost scope first, a scope's locals in order. -/
def Context.lookupLocal (context : Context) (name : String) : Option Local :=
  context.scopes.flatten.find? fun entry => entry.name = name

/-! ## Reading types -/

def tagOf (idx : TypeIdx) : BodyM TypeTag := read fun s => (s.types[idx]?).map (·.tag)

/-- What a reference points to. -/
def pointeeOf (idx : TypeIdx) : BodyM TypeIdx := read fun s => do
  let node ← s.types[idx]?
  let row ← s.refTypes[← node.asRef]?
  return row.pointee

def structFields (idx : TypeIdx) : BodyM IdxRange := read fun s => do
  let node ← s.types[idx]?
  let row ← s.structTypes[← node.asStruct]?
  return row.fields

def tupleElements (idx : TypeIdx) : BodyM IdxRange := read fun s => do
  let node ← s.types[idx]?
  let row ← s.tupleTypes[← node.asTuple]?
  return row.elements

def enumVariants (idx : TypeIdx) : BodyM IdxRange := read fun s => do
  let node ← s.types[idx]?
  let row ← s.enumTypes[← node.asEnum]?
  return row.variants

def arrayElement (idx : TypeIdx) : BodyM TypeIdx := read fun s => do
  let node ← s.types[idx]?
  let row ← s.arrayTypes[← node.asArray]?
  return row.element

/-- An entry of a range. -/
def slot (range : IdxRange) (i : Nat) : BodyM TypeIdx := read fun _ => range.toList[i]?

def isIntegerTag : TypeTag → Bool
  | .i8 | .i16 | .i32 | .i64 | .u8 | .u16 | .u32 | .u64 => true
  | _ => false

def isFloatTag (tag : TypeTag) : Bool := tag = .f32 || tag = .f64

def isVoid (idx : TypeIdx) : BodyM Bool := return (← tagOf idx) = .void

def isNever (idx : TypeIdx) : BodyM Bool := return (← tagOf idx) = .never

def isError (idx : TypeIdx) : BodyM Bool := return (← tagOf idx) = .error

/-- `pretty_tag`, with the names of `type_to_str`. -/
def prettyTag : TypeTag → String
  | .void => "()" | .i1 => "bool" | .never => "!" | .str => "str"
  | .i8 => "i8" | .i16 => "i16" | .i32 => "i32" | .i64 => "i64"
  | .u8 => "u8" | .u16 => "u16" | .u32 => "u32" | .u64 => "u64"
  | .f32 => "f32" | .f64 => "f64" | .ptr => "ptr" | .ref => "ref" | .mutRef => "mut_ref"
  | .struct => "struct" | .array => "array" | .function => "function" | .enum => "enum"
  | .tuple => "tuple" | .error => "error"

/-- `blessed_find` -/
def findBlessed (table : Table) (idx : TypeIdx) : Option BlessedEntry :=
  table.blessed.find? fun entry => entry.type = idx

def blessedFind (idx : TypeIdx) : BodyM (Option BlessedEntry) :=
  check fun st => some (findBlessed st.table idx, st)

def isMustUse (idx : TypeIdx) : BodyM Bool := return (← blessedFind idx).isSome

/-! ## Comparing types -/

/-- Pairs one after the other, until one differs. -/
def allEqual {σ : Type} (equal : σ → TypeIdx → TypeIdx → Option (Bool × σ)) :
    σ → List (TypeIdx × TypeIdx) → Option (Bool × σ)
  | seen, [] => some (true, seen)
  | seen, (a, b) :: rest => do
    let (same, seen) ← equal seen a b
    if same then allEqual equal seen rest else return (false, seen)

/-- `types_equal_inner`, with the pairs it has met. Structs and enums compare by index only. -/
def typesEqualInner (s : Storage) : Nat → List (TypeIdx × TypeIdx) → TypeIdx → TypeIdx →
    Option (Bool × List (TypeIdx × TypeIdx))
  | 0, _, _, _ => none
  | fuel + 1, seen, a, b =>
    if a = b then some (true, seen)
    else if (a, b) ∈ seen then some (true, seen)
    else do
      let seen := seen ++ [(a, b)]
      let left ← s.types[a]?
      let right ← s.types[b]?
      if left.tag ≠ right.tag then return (false, seen)
      else
        match left.tag with
        | .ref | .mutRef => do
          let left ← s.refTypes[left.data]?
          let right ← s.refTypes[right.data]?
          typesEqualInner s fuel seen left.pointee right.pointee
        | .array => do
          let left ← s.arrayTypes[left.data]?
          let right ← s.arrayTypes[right.data]?
          if left.count = right.count then typesEqualInner s fuel seen left.element right.element
          else return (false, seen)
        | .tuple => do
          let left ← s.tupleTypes[left.data]?
          let right ← s.tupleTypes[right.data]?
          if left.elements.size ≠ right.elements.size then return (false, seen)
          else
            allEqual (typesEqualInner s fuel) seen
              (left.elements.toList.zip right.elements.toList)
        | .struct | .enum => return (false, seen)
        | _ => return (true, seen)

/-- `types_equal`, with more depth than there are pairs of types. -/
def typesEqual (s : Storage) (a b : TypeIdx) : Option Bool :=
  (typesEqualInner s (s.types.length * s.types.length + 1) [] a b).map (·.1)

/-- The result of `unify`. Equality first, so that `!` is compared with `!` like any other type. -/
def unified (expected actual : TypeIdx) (span : Span) (what : String) : BodyM TypeIdx := do
  if ← isError expected then return actual
  else if ← isError actual then return expected
  else if ← read (typesEqual · expected actual) then return actual
  else if ← isNever expected then return actual
  else if ← isNever actual then return expected
  else
    let wanted ← tagOf expected
    let found ← tagOf actual
    reject kAnalyzerTypeMismatch span ("type mismatch in " ++ what ++ ": expected '" ++
      prettyTag wanted ++ "', found '" ++ prettyTag found ++ "'")

/-- `unify`, entered into the history. -/
def unify (expected actual : TypeIdx) (span : Span) (what : String) : BodyM TypeIdx := do
  let before ← get
  let result ← unified expected actual span what
  modify fun st =>
    { st with comparisons := st.comparisons ++
        [⟨expected, actual, what, before.check.table.storage,
          st.check.bag = before.check.bag⟩] }
  return result

/-- `unify` where there is an expected type. -/
def unifyExpected (expected : Option TypeIdx) (actual : TypeIdx) (span : Span) (what : String) :
    BodyM TypeIdx :=
  match expected with
  | none => return actual
  | some expected => unify expected actual span what

/-! ## Literals -/

/-- `kSuffixes` -/
def kSuffixes : List (String × TypeTag × Bool) :=
  [("isize", .i64, false), ("usize", .u64, false), ("i8", .i8, false), ("i16", .i16, false),
    ("i32", .i32, false), ("i64", .i64, false), ("u8", .u8, false), ("u16", .u16, false),
    ("u32", .u32, false), ("u64", .u64, false), ("f32", .f32, true), ("f64", .f64, true)]

/-- What the end of a number's spelling says about its type. -/
inductive Suffix where
  | absent
  | known (tag : TypeTag) (isFloat : Bool)
  | unsupported (text : String)
  deriving DecidableEq

def isAlpha (c : Char) : Bool := ('a' ≤ c && c ≤ 'z') || ('A' ≤ c && c ≤ 'Z')

def suffixTag (width : PointerWidth) (text : String) (tag : TypeTag) : TypeTag :=
  if text = "isize" then (if width = .w64 then .i64 else .i32)
  else if text = "usize" then (if width = .w64 then .u64 else .u32)
  else tag

/-- `classify_suffix`: the first known suffix that is not the whole spelling; letters at the end
that are none of them are reported by the caller. -/
def classifySuffix (width : PointerWidth) (spelling : String) : Suffix :=
  let fits (entry : String × TypeTag × Bool) : Bool :=
    entry.1.toList.length < spelling.toList.length && entry.1.toList.isSuffixOf spelling.toList
  match kSuffixes.find? fits with
  | some (text, tag, isFloat) => .known (suffixTag width text tag) isFloat
  | none =>
    match (spelling.toList.reverse.takeWhile isAlpha).reverse with
    | [] => .absent
    | letters => .unsupported (String.ofList letters)

def unsupportedSuffix (span : Span) (text : String) : BodyM TypeIdx :=
  reject kAnalyzerUnsupportedType span ("unsupported literal suffix '" ++ text ++ "'")

/-- A number without a suffix takes the expected type when its tag fits. -/
def bareNumber (fits : TypeTag → Bool) (tag : TypeTag) (expected : Option TypeIdx) (span : Span)
    (what : String) : BodyM TypeIdx :=
  match expected with
  | none => return primitiveIdx tag
  | some type => do
    if fits (← tagOf type) then return type else unify type (primitiveIdx tag) span what

variable (p : Package)

/-- `check_literal` -/
def checkLiteral (lit : Literal) (expected : Option TypeIdx) : BodyM TypeIdx :=
  match lit.kind with
  | .bool => unifyExpected expected (primitiveIdx .i1) lit.span "boolean literal"
  | .string => unifyExpected expected (primitiveIdx .str) lit.span "string literal"
  | .char => reject kAnalyzerUnsupportedType lit.span
      "character literals need the core Char type (deferred)"
  | .integer =>
    match classifySuffix p.width lit.spelling with
    | .unsupported text => unsupportedSuffix lit.span text
    | .known tag isFloat =>
      if isFloat then reject kAnalyzerTypeMismatch lit.span "float suffix on an integer literal"
      else unifyExpected expected (primitiveIdx tag) lit.span "integer literal"
    | .absent => bareNumber isIntegerTag .i32 expected lit.span "integer literal"
  | .float =>
    match classifySuffix p.width lit.spelling with
    | .unsupported text => unsupportedSuffix lit.span text
    | .known tag _ =>
      if !isFloatTag tag then
        reject kAnalyzerTypeMismatch lit.span "integer suffix on a float literal"
      else unifyExpected expected (primitiveIdx tag) lit.span "float literal"
    | .absent => bareNumber isFloatTag .f64 expected lit.span "float literal"

end Alcy.Analyzer.Bodies
