import Alcy.Analyzer.ExprRule

/-! # The induction rule for whole bodies

Blocks, conditions and match arms open scopes, and close them in another function than the one that
opened them. With these the induction over expressions, blocks and statements is complete, and the
rule extends to the items of a package.
-/
namespace Alcy.Analyzer.Bodies
open Alcy.Ast Alcy.Diag Alcy.Ir Alcy.Analyzer.Types
open Alcy.Lib.Contracts (Contract Keeps Leaves)

variable {E D : (α : Type) → BodyM α → Prop} {p : Package}

/-! ## Scopes that are opened and closed apart -/

/-- A condition and what runs in its scope. -/
def condScope {α : Type} (p : Package) (module : Nat) (cond : CondOperand) (m : BodyM α) :
    BodyM α := do
  let binds ← checkCond p module cond
  let a ← m
  popIf binds
  return a

theorem checkIf_eq (module : Nat) (cond : CondOperand) (thenBlock : BlockOperand)
    (elseBlock : Option BlockOperand) (expected : Option TypeIdx) (span : Span) :
    checkIf p module cond thenBlock elseBlock expected span =
      condScope p module cond (thenBlock expected) >>= fun thenType =>
        elseBlock.elim (checkNoElse thenType expected span) fun elseBlock =>
          elseBlock expected >>= fun otherwise => unify thenType otherwise span "if branches" := by
  simp only [checkIf, condScope, bind_assoc, pure_bind]
  cases elseBlock <;> rfl

theorem checkWhile_eq (module : Nat) (cond : CondOperand) (body : BlockOperand)
    (expected : Option TypeIdx) (span : Span) :
    checkWhile p module cond body expected span =
      condScope p module cond (inLoop body) >>= fun _ =>
        unifyExpected expected (primitiveIdx .void) span "while" := by
  simp only [checkWhile, condScope, bind_assoc, pure_bind]

theorem checkArm_eq (module : Nat) (scrutinee : TypeIdx) (expected : Option TypeIdx) (arm : Arm) :
    checkArm p module scrutinee expected arm =
      inScope (bindArm p module arm.pattern scrutinee >>= fun _ => arm.body.check expected) := by
  simp only [checkArm, inScope, bind_assoc]

theorem checkBlock_eq (statements : BodyM Unit) (value : Option Operand)
    (expected : Option TypeIdx) (span : Span) :
    checkBlock statements value expected span =
      inScope (statements >>= fun _ => blockValue value expected span) := by
  simp only [checkBlock, inScope, bind_assoc]

theorem condScope_pattern {α : Type} (module : Nat) (pattern : Pattern) (init : Operand)
    (m : BodyM α) : condScope p module (.pattern pattern init) m =
      init.check none >>= fun type =>
        inScope (bindPattern p module pattern type >>= fun _ => m) := by
  simp only [condScope, checkCond, inScope, popIf, bind_assoc, pure_bind, if_true]

theorem condScope_value {α : Type} (module : Nat) (value : Operand) (m : BodyM α) :
    condScope p module (.value value) m =
      checkAgainst (primitiveIdx .i1) "condition" value >>= fun _ => m := by
  simp only [condScope, checkCond, popIf, bind_assoc, pure_bind, Bool.false_eq_true, if_false,
    bind_pure]

/-- The expression of a condition has the property. -/
def CondOperand.Good (E : (α : Type) → BodyM α → Prop) : CondOperand → Prop
  | .pattern _ init => init.Good E
  | .value operand => operand.Good E

namespace Discipline

variable (d : Discipline E D)
include d

theorem condScope {α : Type} (module : Nat) {cond : CondOperand} (h : cond.Good E) {m : BodyM α}
    (hm : E α m) : E α (condScope p module cond m) := by
  cases cond with
  | pattern pattern init =>
    rw [condScope_pattern]
    refine d.bind (h _) fun type => d.inScope ?_
    exact d.stmt.bind (d.bindPattern _ _ _) fun _ => d.weaken hm
  | value value =>
    rw [condScope_value]
    exact d.bind (d.checkAgainst _ _ h) fun _ => hm

theorem checkIf (module : Nat) {cond : CondOperand} (h : cond.Good E) {thenBlock : BlockOperand}
    (ht : ∀ expected, E TypeIdx (thenBlock expected)) {elseBlock : Option BlockOperand}
    (he : ∀ block, elseBlock = some block → ∀ expected, E TypeIdx (block expected))
    (expected : Option TypeIdx) (span : Span) :
    E TypeIdx (checkIf p module cond thenBlock elseBlock expected span) := by
  rw [checkIf_eq]
  refine d.bind (d.condScope module h (ht _)) fun thenType => ?_
  cases elseBlock with
  | none =>
    refine d.bind (d.tagOf _) fun tag => ?_
    split
    · exact d.bind (d.report _ _ _) fun _ => d.unifyExpected _ _ _ _
    · exact d.unifyExpected _ _ _ _
  | some block => exact d.bind (he block rfl _) fun _ => d.unify _ _ _ _

theorem checkArm (module : Nat) (scrutinee : TypeIdx) (expected : Option TypeIdx) {arm : Arm}
    (h : arm.body.Good E) : E TypeIdx (checkArm p module scrutinee expected arm) := by
  rw [checkArm_eq]
  refine d.inScope (d.stmt.bind ?_ fun _ => d.weaken (h _))
  refine d.stmt.bind (d.weaken (d.isError _)) fun error => ?_
  split
  · exact d.stmt.pure _
  · exact d.stmt.bind (d.bindPattern _ _ _) fun _ => d.stmt.pure _

theorem checkMatch (module : Nat) {scrutinee : Operand} (hs : scrutinee.Good E)
    {arms : List Arm} (ha : ∀ arm ∈ arms, arm.body.Good E) (expected : Option TypeIdx)
    (span : Span) : E TypeIdx (checkMatch p module scrutinee arms expected span) := by
  refine d.bind (hs _) fun type => d.bind d.errorType fun placeholder => ?_
  refine d.bind (d.expr.foldlM (fun arm harm result => ?_) none) fun result => ?_
  · refine d.bind (d.checkArm _ _ _ (ha arm harm)) fun body => ?_
    split
    · exact d.pure _
    · exact d.bind (d.unify _ _ _ _) fun _ => d.pure _
  · have hcoverage : E Unit (checkCoverage type arms span) := by
      refine d.bind (d.isError _) fun error => ?_
      split
      · exact d.pure _
      · exact d.checkExhaustive _ _ _
    refine d.bind hcoverage fun _ => ?_
    split
    · exact d.pure _
    · exact d.unifyExpected _ _ _ _

theorem checkBlock {statements : BodyM Unit} (hs : D Unit statements) {value : Option Operand}
    (hv : ∀ operand, value = some operand → operand.Good E) (expected : Option TypeIdx)
    (span : Span) : E TypeIdx (checkBlock statements value expected span) := by
  rw [checkBlock_eq]
  refine d.inScope (d.stmt.bind hs fun _ => d.weaken ?_)
  unfold blockValue
  split
  · exact d.unifyExpected _ _ _ _
  · exact d.bind (hv _ rfl _) fun _ => d.unifyExpected _ _ _ _

theorem checkReturn {value : Option Operand}
    (hv : ∀ operand, value = some operand → operand.Good E) (span : Span) :
    E TypeIdx (checkReturn value span) := by
  refine d.bind d.get fun st => ?_
  split
  · refine d.bind (d.bind d.get fun st => ?_) fun _ => d.neverType
    split
    · exact d.bind (d.unify _ _ _ _) fun _ => d.pure _
    · exact d.checkAgainst _ _ (hv _ rfl)
  · exact d.reject _ _ _

theorem checkJump (name : String) (span : Span) : E TypeIdx (checkJump name span) := by
  refine d.bind d.get fun st => ?_
  split
  · exact d.reject _ _ _
  · exact d.neverType

/-! ## Places and statements -/

theorem checkPlacePath (module : Nat) (path : Path) (span : Span) :
    E TypeIdx (checkPlacePath p module path span) := by
  refine d.bind (d.resolveValuePath _ _) fun resolved => ?_
  split
  · exact d.errorType
  · refine d.bind d.get fun st => ?_
    split
    · exact d.reject _ _ _
    · split
      · exact d.pure _
      · exact d.reject _ _ _
  · exact d.reject _ _ _

theorem checkPlaceField {place : BodyM TypeIdx} (hp : E TypeIdx place) {receiver : Operand}
    (hr : receiver.Good E) (name : Ident) (span : Span) :
    E TypeIdx (checkPlaceField place receiver name span) := by
  refine d.bind hp fun type => d.bind (d.isError _) fun error => ?_
  split
  · exact d.errorType
  refine d.bind (d.tagOf _) fun tag => ?_
  split
  · exact d.errorType
  · exact d.checkField hr _ _ _

theorem checkPlaceIndex {place : BodyM TypeIdx} (hp : E TypeIdx place)
    {receiver index : Operand} (hr : receiver.Good E) (hi : index.Good E) (span : Span) :
    E TypeIdx (checkPlaceIndex place receiver index span) := by
  refine d.bind hp fun type => d.bind (d.isError _) fun error => ?_
  split
  · exact d.errorType
  · exact d.checkIndex hr hi _ _

theorem reportRefutable (refutable : Bool) (span : Span) (message : String) :
    E Unit (reportRefutable refutable span message) := by
  unfold Bodies.reportRefutable
  split
  · exact d.report _ _ _
  · exact d.pure _

theorem checkDecl (module : Nat) (pattern : Pattern) (type : Option Ty) {init : Operand}
    (h : init.Good E) : D Unit (checkDecl p module pattern type init) := by
  have hascribed : E (Option TypeIdx) (ascribedType p module type) := by
    unfold ascribedType
    split
    · exact d.pure _
    · exact d.bind (d.check (resolve_onward _)) fun _ => d.pure _
  refine d.stmt.bind (d.weaken d.errorType) fun _ => ?_
  refine d.stmt.bind (d.weaken hascribed) fun expected => ?_
  refine d.stmt.bind (d.weaken (h _)) fun actual => ?_
  refine d.stmt.bind (d.weaken (d.unifyExpected _ _ _ _)) fun _ => ?_
  exact d.stmt.bind (d.bindPattern _ _ _) fun _ => d.weaken (d.reportRefutable _ _ _)

theorem checkReassign {place : BodyM TypeIdx} (hp : E TypeIdx place) (compound : Bool)
    {value : Operand} (hv : value.Good E) (span : Span) :
    E Unit (checkReassign place compound value span) := by
  refine d.bind hp fun type => d.bind (hv _) fun actual => ?_
  have hnumeric : E Bool (notNumeric compound type) := by
    unfold notNumeric
    split
    · exact d.bind (d.tagOf _) fun _ => d.bind (d.tagOf _) fun _ => d.pure _
    · exact d.pure _
  refine d.bind hnumeric fun wrong => ?_
  split
  · exact d.report _ _ _
  · exact d.bind (d.unify _ _ _ _) fun _ => d.pure _

theorem checkExprStmt {value : Operand} (hv : value.Good E) : E Unit (checkExprStmt value) := by
  refine d.bind (hv _) fun type => d.bind (d.tagOf _) fun tag => ?_
  split
  · exact d.pure _
  refine d.bind (d.bind (d.blessedFind _) fun _ => d.pure _) fun mustUse => ?_
  split
  · exact d.warn _ _ _
  · exact d.warn _ _ _

/-! ## The induction -/

set_option linter.unusedSectionVars false in
mutual

/-- **Every expression has the property**, whatever type is expected of it. -/
theorem checkExpr (module : Nat) : ∀ (e : Expr) (expected : Option TypeIdx),
    E TypeIdx (checkExpr p module e expected)
  | .literal _ value, expected => by
    unfold Bodies.checkExpr
    exact d.checkLiteral _ _
  | .path span path, expected => by
    unfold Bodies.checkExpr
    exact d.checkPathExpr _ _ _ _
  | .struct span path init baseExpr, expected => by
    unfold Bodies.checkExpr
    exact d.checkStructExpr _ _ (initOperands module init) (optOperand module baseExpr) _ _
  | .tuple span elements, expected => by
    unfold Bodies.checkExpr
    exact d.checkTuple (operands module elements) _ _
  | .unary span op inner, expected => by
    unfold Bodies.checkExpr
    refine d.checkUnary _ ?_ _ _
    exact checkExpr module inner
  | .borrow span isMut inner, expected => by
    unfold Bodies.checkExpr
    refine d.checkBorrow _ ?_ _ _
    exact checkExpr module inner
  | .binary span op lhs rhs, expected => by
    unfold Bodies.checkExpr
    refine d.checkBinary _ ?_ ?_ _ _
    · exact checkExpr module lhs
    · exact checkExpr module rhs
  | .cast span inner type, expected => by
    unfold Bodies.checkExpr
    refine d.checkCast _ ?_ _ _ _
    exact checkExpr module inner
  | .call span callee args, expected => by
    unfold Bodies.checkExpr
    exact d.checkCall _ _ (operands module args) _ _
  | .methodCall span receiver name args, expected => by
    unfold Bodies.checkExpr
    refine d.checkMethodCall ?_ _ (operands module args) _ _
    exact checkExpr module receiver
  | .field span receiver name, expected => by
    unfold Bodies.checkExpr
    refine d.checkField ?_ _ _ _
    exact checkExpr module receiver
  | .index span receiver index, expected => by
    unfold Bodies.checkExpr
    refine d.checkIndex ?_ ?_ _ _
    · exact checkExpr module receiver
    · exact checkExpr module index
  | .question span inner, expected => by
    unfold Bodies.checkExpr
    refine d.checkQuestion ?_ _ _
    exact checkExpr module inner
  | .ifExpr span cond thenBlock elseBlock, expected => by
    unfold Bodies.checkExpr
    refine d.checkIf _ ?_ (blockOperand module thenBlock) (optBlock module elseBlock) _ _
    exact condOperand module cond
  | .matchExpr span scrutinee arms, expected => by
    unfold Bodies.checkExpr
    refine d.checkMatch _ ?_ (matchArms module arms) _ _
    exact checkExpr module scrutinee
  | .loop span body, expected => by
    unfold Bodies.checkExpr
    exact d.bind (d.inLoop (blockOperand module body _)) fun _ => d.unifyExpected _ _ _ _
  | .whileExpr span cond body, expected => by
    unfold Bodies.checkExpr
    rw [checkWhile_eq]
    refine d.bind (d.condScope _ ?_ (d.inLoop (blockOperand module body _))) fun _ =>
      d.unifyExpected _ _ _ _
    exact condOperand module cond
  | .block _ block, expected => by
    unfold Bodies.checkExpr
    exact blockOperand module block _
  | .returnExpr span value, _ => by
    unfold Bodies.checkExpr
    exact d.checkReturn (optOperand module value) _
  | .breakExpr span, _ => by
    unfold Bodies.checkExpr
    exact d.checkJump _ _
  | .continueExpr span, _ => by
    unfold Bodies.checkExpr
    exact d.checkJump _ _
  | .range span _ _ _, _ => by
    unfold Bodies.checkExpr
    exact d.reject _ _ _

theorem operands (module : Nat) : ∀ (es : List Expr), ∀ arg ∈ operands p module es, arg.Good E
  | [] => by
    unfold Bodies.operands
    exact List.forall_mem_nil _
  | e :: rest => by
    unfold Bodies.operands
    exact List.forall_mem_cons.2 ⟨checkExpr module e, operands module rest⟩

theorem optOperand (module : Nat) : ∀ (e : Option Expr) (operand : Operand),
    optOperand p module e = some operand → operand.Good E
  | none, operand, h => by
    unfold Bodies.optOperand at h
    cases h
  | some e, operand, h => by
    unfold Bodies.optOperand at h
    cases h
    exact checkExpr module e

theorem initOperands (module : Nat) : ∀ (init : List FieldInit),
    ∀ field ∈ initOperands p module init, field.2.Good E
  | [] => by
    unfold Bodies.initOperands
    exact List.forall_mem_nil _
  | .mk name value :: rest => by
    unfold Bodies.initOperands
    exact List.forall_mem_cons.2 ⟨checkExpr module value, initOperands module rest⟩

theorem condOperand (module : Nat) : ∀ (cond : Cond), (condOperand p module cond).Good E
  | .pattern pattern init => by
    unfold Bodies.condOperand
    exact checkExpr module init
  | .value value => by
    unfold Bodies.condOperand
    exact checkExpr module value

theorem matchArms (module : Nat) : ∀ (arms : List MatchArm),
    ∀ arm ∈ matchArms p module arms, arm.body.Good E
  | [] => by
    unfold Bodies.matchArms
    exact List.forall_mem_nil _
  | .mk pattern body :: rest => by
    unfold Bodies.matchArms
    exact List.forall_mem_cons.2 ⟨checkExpr module body, matchArms module rest⟩

/-- **Every block.** -/
theorem blockOperand (module : Nat) : ∀ (block : Ast.Block) (expected : Option TypeIdx),
    E TypeIdx (blockOperand p module block expected)
  | .mk span statements value, expected => by
    unfold Bodies.blockOperand
    exact d.checkBlock (checkStmts module statements) (optOperand module value) _ _

theorem optBlock (module : Nat) : ∀ (block : Option Ast.Block) (operand : BlockOperand),
    optBlock p module block = some operand → ∀ expected, E TypeIdx (operand expected)
  | none, operand, h => by
    unfold Bodies.optBlock at h
    cases h
  | some block, operand, h => by
    unfold Bodies.optBlock at h
    cases h
    exact blockOperand module block

theorem checkPlace (module : Nat) : ∀ (e : Expr), E TypeIdx (checkPlace p module e)
  | .path span path => by
    unfold Bodies.checkPlace
    exact d.checkPlacePath _ _ _
  | .field span receiver name => by
    unfold Bodies.checkPlace
    refine d.checkPlaceField (checkPlace module receiver) ?_ _ _
    exact checkExpr module receiver
  | .index span receiver index => by
    unfold Bodies.checkPlace
    refine d.checkPlaceIndex (checkPlace module receiver) ?_ ?_ _
    · exact checkExpr module receiver
    · exact checkExpr module index
  | .literal .. | .struct .. | .tuple .. | .unary .. | .borrow .. | .binary .. | .cast ..
  | .call .. | .methodCall .. | .question .. | .ifExpr .. | .matchExpr .. | .loop ..
  | .whileExpr .. | .block .. | .returnExpr .. | .breakExpr .. | .continueExpr .. | .range .. => by
    unfold Bodies.checkPlace
    exact d.reject _ _ _

/-- **Every statement** may declare. -/
theorem checkStmt (module : Nat) : ∀ (stmt : Stmt), D Unit (checkStmt p module stmt)
  | .decl _ pattern type init => by
    unfold Bodies.checkStmt
    refine d.checkDecl _ _ _ ?_
    exact checkExpr module init
  | .reassign span place compound _ value => by
    unfold Bodies.checkStmt
    refine d.weaken (d.checkReassign (checkPlace module place) _ ?_ _)
    exact checkExpr module value
  | .expr _ value => by
    unfold Bodies.checkStmt
    refine d.weaken (d.checkExprStmt ?_)
    exact checkExpr module value

theorem checkStmts (module : Nat) : ∀ (stmts : List Stmt), D Unit (checkStmts p module stmts)
  | [] => by
    unfold Bodies.checkStmts
    exact d.stmt.pure _
  | stmt :: rest => by
    unfold Bodies.checkStmts
    exact d.stmt.bind (checkStmt module stmt) fun _ => checkStmts module rest

end

end Discipline

/-! ## Items -/

/-- An initialiser in a scope of its own. -/
def initializerScope (m : BodyM Unit) : BodyM Unit := do
  modifyContext fun context => { context with inFn := false }
  pushScope
  m
  popScope

/-- A function with its return type, in a scope of its own. -/
def functionScope (ret : TypeIdx) (m : BodyM Unit) : BodyM Unit := do
  modifyContext fun context => { context with fnRet := ret, inFn := true }
  pushScope
  modifyContext fun context => { context with loopDepth := 0 }
  m
  popScope
  modifyContext fun context => { context with inFn := false }

/-- `T` of the programs that run between the bodies. -/
structure PackageRule (E D T : (α : Type) → BodyM α → Prop) : Prop extends Discipline E D where
  item : Closed T
  lift : ∀ {α : Type} {m : BodyM α}, E α m → T α m
  initializer : ∀ {m : BodyM Unit}, D Unit m → T Unit (initializerScope m)
  function : ∀ {m : BodyM Unit} (ret : TypeIdx), D Unit m → T Unit (functionScope ret m)

namespace PackageRule

variable {T : (α : Type) → BodyM α → Prop} (r : PackageRule E D T)
include r

theorem checkInitializer (module : Nat) (declared : TypeIdx) (init : Expr) :
    T Unit (checkInitializer p module declared init) := by
  refine r.initializer (r.weaken (r.checkAgainst _ _ ?_))
  exact r.checkExpr module init

theorem checkStatic (module : Nat) (decl : StaticItem) : T Unit (checkStatic p module decl) := by
  refine r.item.bind (r.lift (r.check (resolve_onward _))) fun declared => ?_
  refine r.item.bind (r.lift ?_) fun _ => r.checkInitializer _ _ _
  refine r.bind (r.read _) fun holds => ?_
  split
  · exact r.report _ _ _
  · exact r.pure _

theorem checkConst (module : Nat) (decl : StaticItem) : T Unit (checkConst p module decl) := by
  refine r.item.bind (r.lift (r.check (resolve_onward _))) fun declared => ?_
  refine r.item.bind (r.lift ?_) fun _ => r.checkInitializer _ _ _
  unfold checkConstInit
  split
  · exact r.pure _
  · exact r.report _ _ _

theorem checkFn (module : Nat) (self : Option TypeIdx) (fn : FnItem) :
    T Unit (checkFn p module self fn) := by
  refine r.item.bind (r.lift (r.check (resolveReturn_onward _))) fun ret => r.function ret ?_
  refine r.stmt.bind (r.stmt.forM fun param _ => ?_) fun _ => ?_
  · refine r.stmt.bind (r.weaken (r.check (resolve_onward _))) fun type => ?_
    exact r.stmt.bind (r.bindPattern _ _ _) fun _ => r.weaken (r.reportRefutable _ _ _)
  · exact r.weaken (r.bind (r.blockOperand module fn.body _) fun _ => r.pure _)

theorem checkMain (module : Nat) (fn : FnItem) : E Unit (checkMain p module fn) := by
  have hparams : E Unit (reportMainParams fn) := by
    unfold reportMainParams
    split
    · exact r.pure _
    · exact r.report _ _ _
  have hreturns (ret : TypeIdx) : E Bool (mainReturns ret) := by
    refine r.bind (r.tagOf _) fun tag => ?_
    split
    · exact r.pure _
    refine r.bind (r.blessedFind _) fun entry => ?_
    split
    · exact r.pure _
    · exact r.bind (r.read _) fun _ => r.bind (r.tagOf _) fun _ => r.pure _
  refine r.bind hparams fun _ => r.bind (r.check (resolveReturn_onward _)) fun ret => ?_
  refine r.bind (hreturns ret) fun returns => ?_
  split
  · exact r.pure _
  · exact r.report _ _ _

theorem implBodySelf (module : Nat) (impl : ImplItem) :
    E (Option TypeIdx) (implBodySelf p module impl) := by
  unfold Bodies.implBodySelf
  split
  · split
    · refine r.bind (r.check resolveTypePath_onward) fun target => ?_
      split
      · exact r.pure _
      · refine r.bind r.get fun st => ?_
        split
        · exact r.pure _
        · exact r.bind (r.intern _) fun _ => r.pure _
    · exact r.pure _
  · exact r.pure _

theorem checkItem (module : Nat) (item : Item) : T Unit (checkItem p module item) := by
  cases item with
  | fn fn =>
    refine r.item.bind (r.checkFn _ _ _) fun _ => ?_
    split
    · exact r.lift (r.checkMain _ _)
    · exact r.item.pure _
  | impl impl =>
    refine r.item.bind (r.lift r.errorType) fun _ => ?_
    refine r.item.bind (r.lift (r.implBodySelf _ _)) fun self => ?_
    exact r.item.forM fun method _ => r.checkFn _ _ _
  | static decl => exact r.checkStatic _ _
  | const decl => exact r.checkConst _ _
  | _ => exact r.item.pure _

/-- **All bodies of a package.** -/
theorem checkBodies : T Unit (checkBodies p) :=
  r.item.forM fun _ _ => r.item.forM fun _ _ => r.checkItem _ _

end PackageRule

/-! ## One property for all programs -/

namespace Closed

variable {K : (α : Type) → BodyM α → Prop} (h : Closed K)
include h

theorem declare (hi : K (List Local) innermost) (hc : ∀ f, K Unit (modifyContext f))
    (new : Local) : K Unit (declare new) :=
  h.bind hi fun _ => hc _

theorem compareNames (hi : K (List Local) innermost)
    (hr : ∀ code span message, K Unit (report code span message)) (base mark : Nat) (span : Span) :
    K Unit (compareNames base mark span) := by
  refine h.bind hi fun scope => h.forM fun entry _ => ?_
  split
  · exact h.pure _
  · exact hr _ _ _

theorem eraseFrom (hi : K (List Local) innermost) (hc : ∀ f, K Unit (modifyContext f))
    (mark : Nat) : K Unit (eraseFrom mark) :=
  h.bind hi fun _ => hc _

theorem alternative (hi : K (List Local) innermost) (hc : ∀ f, K Unit (modifyContext f))
    (hr : ∀ code span message, K Unit (report code span message)) {α : Type} {m : BodyM α}
    (base : Nat) (span : Span) (hm : K α m) : K α (alternative base span m) :=
  h.bind hi fun _ => h.bind hm fun _ => h.bind (h.compareNames hi hr _ _ _) fun _ =>
    h.bind (h.eraseFrom hi hc _) fun _ => h.pure _

/-- A property that the context has no part in. -/
theorem packageRule (hget : K BodyState get)
    (hcheck : ∀ {α : Type} {m : CheckM α}, Leaves Onward m → K α (Bodies.check m))
    (hrecord : ∀ expected actual span what, K TypeIdx (unified expected actual span what) →
      K TypeIdx (unify expected actual span what))
    (hi : K (List Local) innermost) (hc : ∀ f, K Unit (modifyContext f)) : PackageRule K K K where
  expr := h
  stmt := h
  weaken hm := hm
  get := hget
  check := hcheck
  record := hrecord
  innermost := hi
  declare := h.declare hi hc
  alternative := h.alternative hi hc fun _ _ _ => hcheck report_onward
  inScope hm := h.bind (hc _) fun _ => h.bind hm fun _ => h.bind (hc _) fun _ => h.pure _
  inLoop hb := h.bind (hc _) fun _ => h.bind hb fun _ => hc _
  item := h
  lift hm := hm
  initializer hm := h.bind (hc _) fun _ => h.bind (hc _) fun _ => h.bind hm fun _ => hc _
  function _ hm := h.bind (hc _) fun _ => h.bind (hc _) fun _ => h.bind (hc _) fun _ =>
    h.bind hm fun _ => h.bind (hc _) fun _ => hc _

end Closed

/-- Of all programs of the bodies: the declarations stay and no diagnostic is taken back. -/
def forward : Contract BodyState Fault where
  inv _ := True
  bad _ := False
  rel st st' := Onward st.check st'.check
  refl _ _ := Std.Refl.refl _
  trans _ h h' := IsTrans.trans _ _ _ h h'
  stable _ _ := trivial

theorem forward_modify {f : BodyState → BodyState} (h : ∀ st, (f st).check = st.check) :
    Keeps forward (modify f) := by
  refine .modify fun st _ => ?_
  show Onward st.check (f st).check
  rw [h st]
  exact Std.Refl.refl _

theorem forwardClosed : Closed fun _ => Keeps forward := ⟨.pure, .bind⟩

theorem forward_context (f : Context → Context) : Keeps forward (modifyContext f) :=
  forward_modify fun _ => rfl

theorem forwardRule : PackageRule (fun _ => Keeps forward) (fun _ => Keeps forward)
    (fun _ => Keeps forward) := by
  refine forwardClosed.packageRule .get ?_ ?_ ?_ forward_context
  · intro α m hm
    refine ⟨fun _ _ _ _ => id, fun st a st' _ h => ?_⟩
    unfold Bodies.check at h
    split at h
    · cases h
    · next hrun =>
      cases h
      exact hm _ _ _ hrun
  · intro expected actual span what h
    refine Keeps.get.bind fun _ => h.bind fun _ => Keeps.bind ?_ fun _ => .pure _
    exact forward_modify fun _ => rfl
  · refine ⟨fun _ _ _ _ => id, fun st a st' _ h => ?_⟩
    unfold innermost at h
    split at h <;> cases h
    exact forward.refl st trivial

end Alcy.Analyzer.Bodies
