import Alcy.Analyzer.Exprs

/-! # Checking a package

`check_fn`, `check_bodies` and `check_package` of `src/analyzer/types.cc`: the types first, then
every body of every module, and the search for recursive types at the end.
-/
namespace Alcy.Analyzer.Bodies
open Alcy.Ast Alcy.Diag Alcy.Ir Alcy.Analyzer.Types

/-! ## Statics -/

/-- The first of some types that holds an exclusive reference; `visited` is shared by all. -/
def anyVisited (contains : List TypeIdx → TypeIdx → Option (Bool × List TypeIdx)) :
    List TypeIdx → List TypeIdx → Option (Bool × List TypeIdx)
  | visited, [] => some (false, visited)
  | visited, part :: rest => do
    let (found, visited) ← contains visited part
    if found then return (true, visited) else anyVisited contains visited rest

/-- `contains_mut_ref`, with the types it has visited. -/
def containsMutRef (s : Storage) : Nat → List TypeIdx → TypeIdx → Option (Bool × List TypeIdx)
  | 0, _, _ => none
  | fuel + 1, visited, idx =>
    if idx ∈ visited then some (false, visited)
    else do
      let visited := visited ++ [idx]
      let node ← s.types[idx]?
      match node.tag with
      | .mutRef => return (true, visited)
      | .ref => do
        let row ← s.refTypes[node.data]?
        containsMutRef s fuel visited row.pointee
      | _ => do
        let parts ← s.nodeParts node
        anyVisited (containsMutRef s fuel) visited parts

/-- `contains_mut_ref` from an empty list, with more depth than there are types. -/
def holdsMutRef (s : Storage) (idx : TypeIdx) : Option Bool :=
  (containsMutRef s (s.types.length + 1) [] idx).map (·.1)

variable (p : Package)

def isLiteral : Expr → Bool
  | .literal _ _ => true
  | _ => false

/-- The initialiser of a `static` or `const`, in a scope of its own. -/
def checkInitializer (module : Nat) (declared : TypeIdx) (init : Expr) : BodyM Unit := do
  modifyContext fun context => { context with inFn := false }
  pushScope
  checkAgainst declared "item initializer" ⟨init, checkExpr p module init⟩
  popScope

/-- What a constant may not be. -/
def checkConstInit (decl : StaticItem) : BodyM Unit :=
  if isLiteral decl.init then return
  else report kAnalyzerInvalidOperation decl.init.span
    ("const '" ++ decl.name.name ++ "' admits literal expressions only")

/-- What a static may not contain. -/
def checkStaticType (declared : TypeIdx) (decl : StaticItem) : BodyM Unit := do
  if ← read (holdsMutRef · declared) then
    report kAnalyzerInvalidOperation decl.type.span
      ("static '" ++ decl.name.name ++ "' must not contain '&mut'")
  else return

def checkConst (module : Nat) (decl : StaticItem) : BodyM Unit := do
  let declared ← check (resolveType p (intern p) module none decl.type)
  checkConstInit decl
  checkInitializer p module declared decl.init

def checkStatic (module : Nat) (decl : StaticItem) : BodyM Unit := do
  let declared ← check (resolveType p (intern p) module none decl.type)
  checkStaticType declared decl
  checkInitializer p module declared decl.init

/-! ## Functions -/

def checkParam (module : Nat) (self : Option TypeIdx) (param : FnParam) : BodyM Unit := do
  let type ← check (resolveType p (intern p) module self param.type)
  let refutable ← bindPattern p module param.pattern type
  reportRefutable refutable param.pattern.span "refutable pattern in function parameter"

/-- The parameters and the body, in the scope of the function. -/
def checkSignature (module : Nat) (self : Option TypeIdx) (fn : FnItem) (ret : TypeIdx) :
    BodyM Unit := do
  fn.params.forM (checkParam p module self)
  let _ ← blockOperand p module fn.body (some ret)

/-- `check_fn` -/
def checkFn (module : Nat) (self : Option TypeIdx) (fn : FnItem) : BodyM Unit := do
  let ret ← check (resolveReturn p module self fn.returnType)
  modifyContext fun context => { context with fnRet := ret, inFn := true }
  pushScope
  modifyContext fun context => { context with loopDepth := 0 }
  checkSignature p module self fn ret
  popScope
  modifyContext fun context => { context with inFn := false }

/-- Whether `main` may return the type. -/
def mainReturns (ret : TypeIdx) : BodyM Bool := do
  let tag ← tagOf ret
  if tag = .error ∨ tag = .void ∨ tag = .i32 then return true
  else
    match (← blessedFind ret).filter (·.isResult) with
    | none => return false
    | some entry => isVoid (← read fun _ => entry.args[0]?)

def reportMainParams (fn : FnItem) : BodyM Unit :=
  if fn.params.isEmpty then return
  else report kAnalyzerBadReturn fn.span "'main' must take no parameters"

/-- `check_main` -/
def checkMain (module : Nat) (fn : FnItem) : BodyM Unit := do
  reportMainParams fn
  let ret ← check (resolveReturn p module none fn.returnType)
  if ← mainReturns ret then return
  else report kAnalyzerBadReturn fn.span "'main' must return '()', 'i32', or 'Result<(), E>'"

/-! ## Items -/

/-- The self type of an `impl` block; the first pass has reported what is wrong with it. -/
def implBodySelf (module : Nat) (impl : ImplItem) : BodyM (Option TypeIdx) :=
  match impl.type with
  | .path _ path args =>
    if args.isEmpty then do
      match ← check (resolveTypePath p module path) with
      | none => return none
      | some (targetModule, targetName) =>
        let st ← get
        match findNominal st.check.table.nominals targetModule targetName with
        | none => return none
        | some e => return some (← check (intern p e))
    else return none
  | _ => return none

def isMain (module : Nat) (fn : FnItem) : Bool :=
  module = p.tree.rootIndex && fn.name.name = "main"

/-- One item of `check_bodies`. -/
def checkItem (module : Nat) : Item → BodyM Unit
  | .fn fn => do
    checkFn p module none fn
    if isMain p module fn then checkMain p module fn else return
  | .impl impl => do
    -- the placeholder of the self type
    let _ ← errorType
    let self ← implBodySelf p module impl
    impl.methods.forM (checkFn p module self)
  | .static decl => checkStatic p module decl
  | .const decl => checkConst p module decl
  | _ => return

def checkBodies : BodyM Unit :=
  (List.range p.tree.modules.length).forM fun module =>
    (p.tree.node module).items.forM (checkItem p module)

/-- The types of `check_package`. -/
def checkTypes : BodyM Unit := do
  check (registerNominals p)
  check ((List.range p.tree.modules.length).forM (processModule p))

/-- `check_package` -/
def checkPackage : BodyM Unit := do
  checkTypes p
  checkBodies p
  check validateCycles

/-- The members of a new `Checker`. -/
def BodyState.start : BodyState := ⟨CheckState.start, ⟨[], 0, false, 0⟩, []⟩

/-! ## Packages of one module -/

/-- A package with nothing but these items. -/
def onlyRoot (items : List Item) : Package where
  tree :=
    { packageName := "demo"
      modules := [⟨"", some 0, items, none, []⟩]
      nonempty := Nat.one_pos
      children_lt := by simp
      parent_lt := by simp }
  imports _ := []
  width := .w64
  pool := String.length

def pathTo (segments : List String) : Path := ⟨segments.map fun name => ⟨name, default⟩, default⟩

def namedType (name : String) : Ty := .path default (pathTo [name]) []

def callTo (segments : List String) (args : List Expr) : Expr :=
  .call default (.path default (pathTo segments)) args

/-- A function whose body is one expression, or none. -/
def fnOf (name : String) (params : List FnParam) (ret : Option Ty) (value : Option Expr) : FnItem :=
  ⟨default, false, ⟨name, default⟩, params, ret, .mk default [] value⟩

def unitStruct (name : String) : Item := .struct ⟨default, false, ⟨name, default⟩, []⟩

def implOf (name : String) (methods : List FnItem) : Item :=
  .impl ⟨default, false, namedType name, methods⟩

/-- The state after the types, where the package has one. -/
def typed (p : Package) : Option BodyState :=
  (checkTypes p .start).toOption.map (·.2)

/-- The codes and texts that a run reports, when it finishes. -/
def reported {α : Type} (result : Except Fault (α × BodyState)) : Option (List (Nat × String)) :=
  result.toOption.map fun r => r.2.check.bag.map fun d => (d.code, d.message)

end Alcy.Analyzer.Bodies
