import Alcy.Analyzer.BodyRule
import Alcy.Analyzer.Bodies

/-! # The induction rule for expressions

Each kind of expression passes the property of its operands on; the induction over the syntax tree
ties the kinds together.
-/
namespace Alcy.Analyzer.Bodies
open Alcy.Ast Alcy.Diag Alcy.Ir Alcy.Analyzer.Types

variable {E D : (α : Type) → BodyM α → Prop}

/-- Checking the operand has the property, whatever is expected. -/
def Operand.Good (E : (α : Type) → BodyM α → Prop) (operand : Operand) : Prop :=
  ∀ expected, E TypeIdx (operand.check expected)

namespace Discipline

variable (d : Discipline E D) {p : Package}
include d

/-! ## Exhaustiveness -/

theorem nonExhaustive (span : Span) (message : String) : E Unit (nonExhaustive span message) :=
  d.report _ _ _

theorem checkEnum (scrutinee : TypeIdx) (patterns : List Pattern) (span : Span) :
    E Unit (checkEnum scrutinee patterns span) := by
  refine d.bind (d.read _) fun variants => d.bind d.get fun st => ?_
  split
  · unfold checkVariants
    split
    · exact d.pure _
    · exact d.bind (d.read _) fun _ => d.nonExhaustive _ _
  · refine d.bind (d.blessedFind _) fun entry => ?_
    split
    · exact d.pure _
    · exact d.nonExhaustive _ _

theorem checkExhaustive (scrutinee : TypeIdx) (patterns : List Pattern) (span : Span) :
    E Unit (checkExhaustive scrutinee patterns span) := by
  have hbools (covered : List Bool) : E Unit (checkBools covered span) := by
    unfold checkBools
    split
    · exact d.nonExhaustive _ _
    · split
      · exact d.nonExhaustive _ _
      · exact d.pure _
  unfold Bodies.checkExhaustive
  split
  · exact d.pure _
  refine d.bind (d.tagOf _) fun tag => ?_
  split
  · exact hbools _
  split
  · exact d.checkEnum _ _ _
  split
  · exact d.nonExhaustive _ _
  split
  · split
    · exact d.pure _
    · exact d.nonExhaustive _ _
  split
  · split
    · exact d.pure _
    · exact d.nonExhaustive _ _
  · exact d.nonExhaustive _ _

/-! ## Paths and calls -/

theorem checkAll {args : List Operand} (h : ∀ arg ∈ args, arg.Good E) : E Unit (checkAll args) :=
  d.expr.forM fun arg harg => d.bind (h arg harg none) fun _ => d.pure _

theorem checkAgainst (type : TypeIdx) (what : String) {operand : Operand} (h : operand.Good E) :
    E Unit (checkAgainst type what operand) :=
  d.bind (h _) fun _ => d.bind (d.unify _ _ _ _) fun _ => d.pure _

theorem checkNone (expected : Option TypeIdx) (span : Span) :
    E TypeIdx (checkNone expected span) := by
  unfold Bodies.checkNone
  split
  · exact d.reject _ _ _
  · refine d.bind (d.blessedFind _) fun entry => ?_
    split
    · split
      · exact d.pure _
      · exact d.reject _ _ _
    · exact d.reject _ _ _

theorem checkPathExpr (module : Nat) (path : Path) (expected : Option TypeIdx) (span : Span) :
    E TypeIdx (checkPathExpr p module path expected span) := by
  refine d.bind (d.resolveValuePath _ _) fun resolved => ?_
  split
  · exact d.errorType
  · exact d.unifyExpected _ _ _ _
  · exact d.unifyExpected _ _ _ _
  · exact d.unifyExpected _ _ _ _
  · exact d.reject _ _ _
  · exact d.reject _ _ _
  · exact d.reject _ _ _
  · split
    · exact d.reject _ _ _
    · exact d.checkNone _ _
  · exact d.reject _ _ _

theorem checkPairs {args : List Operand} (h : ∀ arg ∈ args, arg.Good E) (types : List TypeIdx)
    (what : String) : E Unit ((args.zip types).forM fun pair =>
      Bodies.checkAgainst pair.2 what pair.1) :=
  d.expr.forM fun pair hpair => d.checkAgainst _ _ (h pair.1 (List.of_mem_zip hpair).1)

theorem checkCallArgs {args : List Operand} (h : ∀ arg ∈ args, arg.Good E)
    (params : List TypeIdx) (span : Span) (what : String) (skipFirst : Bool) :
    E Unit (checkCallArgs args params span what skipFirst) := by
  unfold Bodies.checkCallArgs pairArgs
  by_cases harity : args.length + fixedParams skipFirst ≠ params.length
  · rw [if_pos harity]
    exact d.report _ _ _
  · rw [if_neg harity]
    exact d.checkPairs h _ _

theorem oneString (name what : String) {args : List Operand} (h : ∀ arg ∈ args, arg.Good E)
    (span : Span) {rest : BodyM TypeIdx} (hrest : E TypeIdx rest) :
    E TypeIdx (oneString name what args span rest) := by
  unfold Bodies.oneString
  split
  · exact d.bind (d.checkAgainst _ _ (h _ (List.mem_singleton_self _))) fun _ => hrest
  · exact d.reject _ _ _

theorem checkBuiltin (name : String) {args : List Operand} (h : ∀ arg ∈ args, arg.Good E)
    (expected : Option TypeIdx) (span : Span) :
    E TypeIdx (checkBuiltin name args expected span) := by
  unfold Bodies.checkBuiltin
  split
  · exact d.oneString _ _ h _ (d.unifyExpected _ _ _ _)
  · exact d.oneString _ _ h _ d.neverType

theorem rejectCall (code : Nat) (span : Span) (message : String) {args : List Operand}
    (h : ∀ arg ∈ args, arg.Good E) : E TypeIdx (rejectCall code span message args) :=
  d.bind (d.report _ _ _) fun _ => d.bind (d.checkAll h) fun _ => d.errorType

theorem checkCtorArgs (payloads : List TypeIdx) (enumType : TypeIdx) {args : List Operand}
    (h : ∀ arg ∈ args, arg.Good E) (expected : Option TypeIdx) (span : Span) :
    E TypeIdx (checkCtorArgs payloads enumType args expected span) := by
  unfold Bodies.checkCtorArgs
  split
  · exact d.rejectCall _ _ _ h
  · exact d.bind (d.checkPairs h _ _) fun _ => d.unifyExpected _ _ _ _

theorem ctorInstance (expected : Option TypeIdx) (blessed : Option BlessedEntry) :
    E (Option BlessedEntry) (ctorInstance expected blessed) := by
  unfold Bodies.ctorInstance
  split
  · exact d.pure _
  · refine d.bind (d.blessedFind _) fun entry => ?_
    split
    · exact d.pure _
    · exact d.pure _

theorem checkBlessedCall (blessed : Option BlessedEntry) (first : Bool) (name : String)
    {args : List Operand} (h : ∀ arg ∈ args, arg.Good E) (expected : Option TypeIdx)
    (span : Span) : E TypeIdx (checkBlessedCall p blessed first name args expected span) := by
  refine d.bind (d.ctorInstance _ _) fun entry => ?_
  split
  · exact d.rejectCall _ _ _ h
  · next entry =>
    by_cases hkind : (name = "Ok" || name = "Err") ≠ entry.isResult
    · rw [if_pos hkind]
      exact d.reject _ _ _
    · rw [if_neg hkind]
      exact d.bind (d.variantPayloads _ _ _) fun _ => d.checkCtorArgs _ _ h _ _

theorem checkResolvedCall (resolved : PathValue) {args : List Operand}
    (h : ∀ arg ∈ args, arg.Good E) (expected : Option TypeIdx) (span : Span) :
    E TypeIdx (checkResolvedCall p resolved args expected span) := by
  cases resolved with
  | function found => exact d.bind (d.checkCallArgs h _ _ _ _) fun _ => d.unifyExpected _ _ _ _
  | assocFunction method =>
    exact d.bind (d.checkCallArgs h _ _ _ _) fun _ => d.unifyExpected _ _ _ _
  | tupleVariant found enumType =>
    exact d.bind (d.variantPayloads _ _ _) fun _ => d.checkCtorArgs _ _ h _ _
  | blessedCtor blessed first name => exact d.checkBlessedCall _ _ _ h _ _
  | _ => exact d.rejectCall _ _ _ h

theorem checkCall (module : Nat) (callee : Expr) {args : List Operand}
    (h : ∀ arg ∈ args, arg.Good E) (expected : Option TypeIdx) (span : Span) :
    E TypeIdx (checkCall p module callee args expected span) := by
  unfold Bodies.checkCall
  split
  · refine d.bind d.get fun st => ?_
    split
    · exact d.checkBuiltin _ h _ _
    · refine d.bind (d.resolveValuePath _ _) fun resolved => ?_
      split
      · exact d.bind (d.checkAll h) fun _ => d.errorType
      · exact d.checkResolvedCall _ h _ _
  · exact d.rejectCall _ _ _ h

/-! ## Method calls -/

theorem noArguments (name : String) (args : List Operand) (span : Span) {rest : BodyM TypeIdx}
    (hrest : E TypeIdx rest) : E TypeIdx (noArguments name args span rest) := by
  unfold Bodies.noArguments
  split
  · exact hrest
  · exact d.reject _ _ _

theorem checkBlessedMethod (entry : BlessedEntry) (name : String) {args : List Operand}
    (h : ∀ arg ∈ args, arg.Good E) (expected : Option TypeIdx) (span : Span) :
    E TypeIdx (checkBlessedMethod entry name args expected span) := by
  refine d.bind (d.read _) fun ok => ?_
  split
  · exact d.noArguments _ _ _ (d.unifyExpected _ _ _ _)
  · split
    · exact d.oneString _ _ h _ (d.unifyExpected _ _ _ _)
    · exact d.noArguments _ _ _ (d.unifyExpected _ _ _ _)

theorem receiverNominal (receiver : TypeIdx) : E TypeIdx (receiverNominal receiver) := by
  refine d.bind (d.tagOf _) fun tag => ?_
  split
  · exact d.pointeeOf _
  · exact d.pure _

theorem acceptsReceiver (receiver declared : TypeIdx) :
    E Bool (acceptsReceiver receiver declared) := by
  unfold Bodies.acceptsReceiver
  split
  · exact d.pure _
  · refine d.bind (d.tagOf _) fun tag => d.bind (d.tagOf _) fun declaredTag => ?_
    split
    · exact d.bind (d.pointeeOf _) fun _ => d.pure _
    · exact d.pure _

theorem checkMethod (method : MethodInfo) (receiver : TypeIdx) (receiverSpan : Span)
    (name : Ident) {args : List Operand} (h : ∀ arg ∈ args, arg.Good E)
    (expected : Option TypeIdx) (span : Span) :
    E TypeIdx (checkMethod method receiver receiverSpan name args expected span) := by
  unfold Bodies.checkMethod
  split
  · exact d.reject _ _ _
  · refine d.bind (d.read _) fun declared => d.bind (d.acceptsReceiver _ _) fun accepted => ?_
    split
    · exact d.bind (d.checkCallArgs h _ _ _ _) fun _ => d.unifyExpected _ _ _ _
    · exact d.reject _ _ _

theorem checkMethodCall {receiver : Operand} (hr : receiver.Good E) (name : Ident)
    {args : List Operand} (h : ∀ arg ∈ args, arg.Good E) (expected : Option TypeIdx)
    (span : Span) : E TypeIdx (checkMethodCall p receiver name args expected span) := by
  refine d.bind (hr _) fun type => d.bind (d.isError _) fun error => ?_
  split
  · exact d.bind (d.checkAll h) fun _ => d.errorType
  · refine d.bind (d.bind (d.blessedFind _) fun _ => d.pure _) fun entry => ?_
    split
    · exact d.checkBlessedMethod _ _ h _ _
    · refine d.bind (d.receiverNominal _) fun nominal => d.bind d.get fun st => ?_
      split
      · exact d.rejectCall _ _ _ h
      · exact d.checkMethod _ _ _ _ h _ _

/-! ## Fields, literals of structs and tuples -/

theorem checkStructField (receiver : TypeIdx) (name : Ident) (expected : Option TypeIdx)
    (span : Span) : E TypeIdx (checkStructField receiver name expected span) := by
  refine d.bind (d.read _) fun fields => d.bind d.get fun st => ?_
  split
  · exact d.reject _ _ _
  · exact d.bind (d.slot _ _) fun _ => d.unifyExpected _ _ _ _

theorem checkTupleField (receiver : TypeIdx) (name : Ident) (expected : Option TypeIdx)
    (span : Span) : E TypeIdx (checkTupleField receiver name expected span) := by
  refine d.bind (d.read _) fun elements => ?_
  split
  · exact d.reject _ _ _
  · exact d.bind (d.slot _ _) fun _ => d.unifyExpected _ _ _ _

theorem checkField {receiver : Operand} (hr : receiver.Good E) (name : Ident)
    (expected : Option TypeIdx) (span : Span) :
    E TypeIdx (checkField receiver name expected span) := by
  refine d.bind (hr _) fun type => d.bind (d.isError _) fun error => ?_
  split
  · exact d.errorType
  · refine d.bind (d.read _) fun type => d.bind (d.tagOf _) fun tag => ?_
    split
    · exact d.checkStructField _ _ _ _
    · split
      · exact d.checkTupleField _ _ _ _
      · exact d.reject _ _ _

theorem checkInits (decl : StructItem) (fields : IdxRange) :
    ∀ (init : List (Ident × Operand)) (seen : List Bool), (∀ field ∈ init, field.2.Good E) →
      E (List Bool) (checkInits decl fields init seen)
  | [], seen, _ => by
    unfold Bodies.checkInits
    exact d.pure _
  | (name, value) :: rest, seen, h => by
    obtain ⟨hvalue, hrest⟩ := List.forall_mem_cons.1 h
    unfold Bodies.checkInits
    split
    · refine d.bind (d.report _ _ _) fun _ => d.bind (hvalue _) fun _ => ?_
      exact checkInits decl fields rest _ hrest
    · refine d.bind (d.slot _ _) fun _ => d.bind (d.checkAgainst _ _ hvalue) fun _ => ?_
      exact checkInits decl fields rest _ hrest

theorem checkBase (decl : StructItem) (structType : TypeIdx) {base : Option Operand}
    (hb : ∀ operand, base = some operand → operand.Good E) (seen : List Bool) (span : Span) :
    E Unit (checkBase decl structType base seen span) := by
  unfold Bodies.checkBase
  split
  · exact d.bind (hb _ rfl _) fun _ => d.bind (d.unify _ _ _ _) fun _ => d.pure _
  · refine d.expr.forM fun field _ => ?_
    split
    · exact d.pure _
    · exact d.report _ _ _

theorem checkStructExpr (module : Nat) (path : Path) {init : List (Ident × Operand)}
    (hi : ∀ field ∈ init, field.2.Good E) {base : Option Operand}
    (hb : ∀ operand, base = some operand → operand.Good E) (expected : Option TypeIdx)
    (span : Span) : E TypeIdx (checkStructExpr p module path init base expected span) := by
  refine d.bind (d.resolveStructPath _ _) fun nominal => ?_
  split
  · refine d.bind (d.checkAll fun arg harg => ?_) fun _ => ?_
    · obtain ⟨field, hfield, rfl⟩ := List.mem_map.1 harg
      exact hi field hfield
    · refine d.bind (d.checkAll fun arg harg => ?_) fun _ => d.errorType
      exact hb arg (Option.mem_toList.1 harg)
  · refine d.bind (d.intern _) fun structType => d.bind (d.structDecl _) fun decl => ?_
    refine d.bind (d.read _) fun fields => d.bind (d.checkInits _ _ _ _ hi) fun seen => ?_
    exact d.bind (d.checkBase _ _ hb _ _) fun _ => d.unifyExpected _ _ _ _

theorem elementTypes (expected : Option TypeIdx) (count : Nat) :
    E (Option (List TypeIdx)) (elementTypes expected count) := by
  unfold Bodies.elementTypes
  split
  · exact d.pure _
  · refine d.bind (d.tagOf _) fun tag => ?_
    split
    · refine d.bind (d.read _) fun elements => ?_
      split
      · exact d.pure _
      · exact d.pure _
    · exact d.pure _

theorem checkElements : ∀ (elements : List Operand) (types : Option (List TypeIdx)),
    (∀ element ∈ elements, element.Good E) → E (List TypeIdx) (checkElements elements types)
  | [], _, _ => by
    unfold Bodies.checkElements
    exact d.pure _
  | element :: rest, types, h => by
    obtain ⟨helement, hrest⟩ := List.forall_mem_cons.1 h
    unfold Bodies.checkElements
    refine d.bind d.errorType fun _ => d.bind (helement _) fun _ => ?_
    exact d.bind (checkElements rest _ hrest) fun _ => d.pure _

theorem checkTuple {elements : List Operand} (h : ∀ element ∈ elements, element.Good E)
    (expected : Option TypeIdx) (span : Span) : E TypeIdx (checkTuple elements expected span) := by
  unfold Bodies.checkTuple
  split
  · exact d.unifyExpected _ _ _ _
  · refine d.bind (d.elementTypes _ _) fun types => d.bind (d.checkElements _ _ h) fun idxs => ?_
    exact d.bind (d.check (build_onward (copySeq_extends _))) fun _ =>
      d.bind (d.check (build_onward (tupleType_extends _))) fun _ =>
      d.unifyExpected _ _ _ _

/-! ## Operators -/

theorem checkUnary (op : UnaryOp) {inner : Operand} (h : inner.Good E)
    (expected : Option TypeIdx) (span : Span) : E TypeIdx (checkUnary op inner expected span) := by
  refine d.bind (h _) fun type => d.bind (d.isError _) fun error => ?_
  split
  · exact d.errorType
  · refine d.bind (d.tagOf _) fun tag => ?_
    split
    · exact d.unifyExpected _ _ _ _
    · exact d.reject _ _ _

theorem checkBorrow (isMut : Bool) {inner : Operand} (h : inner.Good E)
    (expected : Option TypeIdx) (span : Span) :
    E TypeIdx (checkBorrow isMut inner expected span) := by
  refine d.bind (h _) fun pointee => d.bind (d.isError _) fun error => ?_
  split
  · exact d.errorType
  · exact d.bind (d.check (build_onward (referenceType_extends _ _))) fun _ => d.unifyExpected _ _ _ _

theorem operandsDiffer (left right : TypeIdx) : E Bool (operandsDiffer left right) := by
  refine d.bind (d.read _) fun same => ?_
  split
  · exact d.pure _
  · refine d.bind (d.isError _) fun error => ?_
    split
    · exact d.pure _
    · exact d.bind (d.isError _) fun _ => d.pure _

theorem coerceOperands {lhs rhs : Operand} (hl : lhs.Good E) (hr : rhs.Good E)
    (left right : TypeIdx) : E (TypeIdx × TypeIdx) (coerceOperands lhs rhs left right) := by
  refine d.bind (d.operandsDiffer _ _) fun differ => ?_
  split
  · refine d.bind (d.tagOf _) fun leftTag => d.bind (d.tagOf _) fun rightTag => ?_
    split
    · exact d.bind (hl _) fun _ => d.pure _
    · split
      · exact d.bind (hr _) fun _ => d.pure _
      · exact d.pure _
  · exact d.pure _

theorem operandType (left right : TypeIdx) (span : Span) (what : String) :
    E TypeIdx (operandType left right span what) := by
  refine d.bind (d.isError _) fun error => ?_
  split
  · exact d.pure _
  refine d.bind (d.isError _) fun error => ?_
  split
  · exact d.pure _
  refine d.bind (d.read _) fun same => ?_
  split
  · exact d.pure _
  · exact d.bind (d.tagOf _) fun _ => d.bind (d.tagOf _) fun _ => d.reject _ _ _

theorem checkBinaryOperands {lhs rhs : Operand} (hl : lhs.Good E) (hr : rhs.Good E)
    (span : Span) (what : String) : E TypeIdx (checkBinaryOperands lhs rhs span what) := by
  refine d.bind (hl _) fun left => d.bind (hr _) fun right => ?_
  exact d.bind (d.coerceOperands hl hr _ _) fun _ => d.operandType _ _ _ _

theorem checkBinary (op : BinaryOp) {lhs rhs : Operand} (hl : lhs.Good E) (hr : rhs.Good E)
    (expected : Option TypeIdx) (span : Span) :
    E TypeIdx (checkBinary op lhs rhs expected span) := by
  unfold Bodies.checkBinary
  split
  · refine d.bind (hl _) fun left => d.bind (hr _) fun right => ?_
    exact d.bind (d.unify _ _ _ _) fun _ => d.bind (d.unify _ _ _ _) fun _ =>
      d.unifyExpected _ _ _ _
  · refine d.bind (d.checkBinaryOperands hl hr _ _) fun operands => ?_
    refine d.bind (d.isError _) fun error => ?_
    split
    · exact d.errorType
    refine d.bind (d.tagOf _) fun tag => ?_
    split
    · exact d.unifyExpected _ _ _ _
    split
    · split
      · exact d.unifyExpected _ _ _ _
      · exact d.unifyExpected _ _ _ _
    · exact d.reject _ _ _

theorem checkCast (module : Nat) {inner : Operand} (h : inner.Good E) (type : Ty)
    (expected : Option TypeIdx) (span : Span) :
    E TypeIdx (checkCast p module inner type expected span) := by
  refine d.bind (h _) fun source => d.bind (d.check (resolve_onward type)) fun target => ?_
  refine d.bind (d.isError _) fun error => ?_
  split
  · exact d.errorType
  refine d.bind (d.isError _) fun error => ?_
  split
  · exact d.errorType
  refine d.bind (d.tagOf _) fun fromTag => d.bind (d.tagOf _) fun toTag => ?_
  split
  · exact d.unifyExpected _ _ _ _
  · exact d.reject _ _ _

theorem checkIndex {receiver index : Operand} (hr : receiver.Good E) (hi : index.Good E)
    (expected : Option TypeIdx) (span : Span) :
    E TypeIdx (checkIndex receiver index expected span) := by
  refine d.bind (hr _) fun type => d.bind (hi _) fun position => ?_
  refine d.bind (d.isError _) fun error => ?_
  split
  · exact d.errorType
  refine d.bind (d.isError _) fun error => ?_
  split
  · exact d.errorType
  refine d.bind (d.tagOf _) fun tag => ?_
  split
  · exact d.reject _ _ _
  refine d.bind (d.tagOf _) fun tag => ?_
  split
  · exact d.reject _ _ _
  · exact d.bind (d.read _) fun _ => d.unifyExpected _ _ _ _

theorem checkQuestion {inner : Operand} (h : inner.Good E) (expected : Option TypeIdx)
    (span : Span) : E TypeIdx (checkQuestion inner expected span) := by
  refine d.bind (h _) fun type => d.bind (d.blessedFind _) fun entry => ?_
  split
  · exact d.reject _ _ _
  refine d.bind d.get fun st => ?_
  split
  · exact d.reject _ _ _
  refine d.bind (d.read _) fun same => ?_
  split
  · exact d.bind (d.read _) fun _ => d.unifyExpected _ _ _ _
  · exact d.reject _ _ _

end Discipline

end Alcy.Analyzer.Bodies
