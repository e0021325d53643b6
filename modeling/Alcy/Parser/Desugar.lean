import Alcy.Ast

/-! # The desugaring of shadowed bindings

`src/parser/desugar.cc`. The pass overwrites names in place; here each visit
returns the node it leaves behind, and the members of `Desugar` are its state. -/
namespace Alcy.Parser
open Alcy.Ast Alcy.Diag

def kParserOrPatternMismatch : Nat := 4102
def kParserAlreadyBound : Nat := 4103

def isKeywordName (name : String) : Bool :=
  name == "self" || name == "super" || name == "package" || name == "Self"

structure Binding where
  orig : String
  fresh : String
  preseeded : Bool
  seen : Bool
  deriving Repr, DecidableEq

/-- `counter` is a `u32`. The last of the source's scopes is the first one here. -/
structure Desugar where
  counter : Nat
  scopes : List (List Binding)
  bag : DiagBag
  deriving Repr

abbrev DM := StateM Desugar

namespace Desugar

/-! ## Scopes -/

def pushScope (scope : List Binding) : DM Unit := modify fun s => { s with scopes := scope :: s.scopes }

def popScope : DM Unit := modify fun s => { s with scopes := s.scopes.tail }

def current (s : Desugar) : List Binding := s.scopes.headD []

def findInnermost (s : Desugar) (name : String) : Option Binding :=
  s.current.find? (·.orig == name)

/-- `current().push_back` -/
def declare (binding : Binding) (s : Desugar) : Desugar :=
  { s with scopes := s.scopes.modifyHead (· ++ [binding]) }

/-- Sets `seen` of the binding that `find_innermost` found. -/
def markSeen (name : String) : List Binding → List Binding
  | [] => []
  | b :: rest =>
    if b.orig == name then { b with seen := true } :: rest else b :: markSeen name rest

/-- Innermost scope first, a scope's bindings in order. -/
def lookup (s : Desugar) (name : String) : String :=
  if isKeywordName name then name
  else match s.scopes.flatten.find? (·.orig == name) with
    | some binding => binding.fresh
    | none => name

def freshName (orig : String) (counter : Nat) : String := orig ++ "$" ++ toString counter

def alreadyBound (name : String) : String := "\x60" ++ name ++ "\x60 is already bound in this scope"

def error (code : Nat) (span : Span) (message : String) (s : Desugar) : Desugar :=
  { s with bag := emit s.bag .error code span message }

def declareNamed (ident : Ident) : DM String := fun s =>
  if isKeywordName ident.name then (ident.name, s)
  else match s.findInnermost ident.name with
    | some existing =>
      if existing.preseeded then
        (existing.fresh, { s with scopes := s.scopes.modifyHead (markSeen ident.name) })
      else (ident.name, s.error kParserAlreadyBound ident.span (alreadyBound ident.name))
    | none =>
      let shadowed := s.scopes.tail.any fun scope => scope.any (·.orig == ident.name)
      if !shadowed then (ident.name, s.declare ⟨ident.name, ident.name, false, false⟩)
      else
        let fresh := freshName ident.name s.counter
        (fresh, { s with counter := (s.counter + 1) % 2 ^ 32 }.declare
          ⟨ident.name, fresh, false, false⟩)

/-- The name of a binder after `declare_named`. -/
def declareIdent (ident : Ident) : DM Ident := do
  return ⟨← declareNamed ident, ident.span⟩

/-! ## Patterns -/

/-- `std::move(current())` and `pop_scope` -/
def takeScope : DM (List Binding) := fun s => (s.current, { s with scopes := s.scopes.tail })

/-- The scope a later alternative starts with. -/
def preseed (first : List Binding) : List Binding :=
  first.map fun b => { b with preseeded := true, seen := false }

/-- The check after a later alternative. -/
def checkAlternative (span : Span) (first : List Binding) : DM Unit := modify fun s =>
  if s.current.length != first.length || s.current.any (fun b => b.preseeded && !b.seen) then
    s.error kParserOrPatternMismatch span "or-pattern alternatives must bind the same names"
  else s

def mergeBinding (span : Span) (s : Desugar) (binding : Binding) : Desugar :=
  if s.current.any fun b => b.orig == binding.orig && !b.preseeded then
    s.error kParserAlreadyBound span (alreadyBound binding.orig)
  else s.declare binding

/-- The loop that merges the first alternative into the current scope. -/
def mergeScope (span : Span) (first : List Binding) : DM Unit :=
  modify fun s => first.foldl (mergeBinding span) s

mutual

/-- `visit_pattern` and, for the last two cases, `visit_or`. The parser makes no
or-pattern without alternatives. -/
def visitPattern : Pattern → DM Pattern
  | .wildcard span => return .wildcard span
  | .ident span name => return .ident span (← declareIdent name)
  | .mutIdent span name => return .mutIdent span (← declareIdent name)
  | .literal span value => return .literal span value
  | .tuple span path elements => return .tuple span path (← visitPatterns elements)
  | .struct span path fields => return .struct span path (← visitFieldPatterns fields)
  | .ref span isMut inner => return .ref span isMut (← visitPattern inner)
  | .or span [] => return .or span []
  | .or span (first :: rest) => do
    pushScope []
    let first ← visitPattern first
    let bound ← takeScope
    let rest ← visitAlternatives span bound rest
    mergeScope span bound
    return .or span (first :: rest)

def visitPatterns : List Pattern → DM (List Pattern)
  | [] => return []
  | p :: rest => return (← visitPattern p) :: (← visitPatterns rest)

def visitFieldPatterns : List (Ident × Pattern) → DM (List (Ident × Pattern))
  | [] => return []
  | (name, p) :: rest => return (name, ← visitPattern p) :: (← visitFieldPatterns rest)

def visitAlternatives (span : Span) (bound : List Binding) : List Pattern → DM (List Pattern)
  | [] => return []
  | p :: rest => do
    pushScope (preseed bound)
    let p ← visitPattern p
    checkAlternative span bound
    popScope
    return p :: (← visitAlternatives span bound rest)

end

/-! ## Expressions, blocks and statements -/

/-- The path of a `PathExpr`; only a single segment is looked up. -/
def visitPath (path : Path) : DM Path := fun s =>
  match path.segments with
  | [first] =>
    let resolved := s.lookup first.name
    if resolved != first.name then (⟨[⟨resolved, first.span⟩], path.span⟩, s) else (path, s)
  | _ => (path, s)

mutual

def visitExpr : Expr → DM Expr
  | .literal span value => return .literal span value
  | .path span path => return .path span (← visitPath path)
  | .struct span path init baseExpr =>
    return .struct span path (← visitFieldInits init) (← visitOption baseExpr)
  | .tuple span elements => return .tuple span (← visitExprs elements)
  | .unary span op inner => return .unary span op (← visitExpr inner)
  | .borrow span isMut inner => return .borrow span isMut (← visitExpr inner)
  | .binary span op lhs rhs => return .binary span op (← visitExpr lhs) (← visitExpr rhs)
  | .cast span inner type => return .cast span (← visitExpr inner) type
  | .call span callee args => return .call span (← visitExpr callee) (← visitExprs args)
  | .methodCall span receiver name args =>
    return .methodCall span (← visitExpr receiver) name (← visitExprs args)
  | .field span receiver name => return .field span (← visitExpr receiver) name
  | .index span receiver index => return .index span (← visitExpr receiver) (← visitExpr index)
  | .question span inner => return .question span (← visitExpr inner)
  | .ifExpr span (.pattern pattern init) thenBlock elseBlock => do
    -- the scope that `visit_cond` pushed covers the then-block
    let init ← visitExpr init
    pushScope []
    let pattern ← visitPattern pattern
    let thenBlock ← visitBlock thenBlock
    popScope
    return .ifExpr span (.pattern pattern init) thenBlock (← visitOptBlock elseBlock)
  | .ifExpr span (.value value) thenBlock elseBlock =>
    return .ifExpr span (.value (← visitExpr value)) (← visitBlock thenBlock)
      (← visitOptBlock elseBlock)
  | .matchExpr span scrutinee arms =>
    return .matchExpr span (← visitExpr scrutinee) (← visitArms arms)
  | .loop span body => return .loop span (← visitBlock body)
  | .whileExpr span (.pattern pattern init) body => do
    let init ← visitExpr init
    pushScope []
    let pattern ← visitPattern pattern
    let body ← visitBlock body
    popScope
    return .whileExpr span (.pattern pattern init) body
  | .whileExpr span (.value value) body =>
    return .whileExpr span (.value (← visitExpr value)) (← visitBlock body)
  | .block span block => return .block span (← visitBlock block)
  | .returnExpr span value => return .returnExpr span (← visitOption value)
  | .breakExpr span => return .breakExpr span
  | .continueExpr span => return .continueExpr span
  | .range span start stop inclusive =>
    return .range span (← visitOption start) (← visitOption stop) inclusive

def visitExprs : List Expr → DM (List Expr)
  | [] => return []
  | e :: rest => return (← visitExpr e) :: (← visitExprs rest)

/-- `visit_expr` of a pointer that may be null. -/
def visitOption : Option Expr → DM (Option Expr)
  | none => return none
  | some e => return some (← visitExpr e)

def visitFieldInits : List FieldInit → DM (List FieldInit)
  | [] => return []
  | .mk name value :: rest => return .mk name (← visitExpr value) :: (← visitFieldInits rest)

def visitArms : List MatchArm → DM (List MatchArm)
  | [] => return []
  | .mk pattern body :: rest => do
    pushScope []
    let pattern ← visitPattern pattern
    let body ← visitExpr body
    popScope
    return .mk pattern body :: (← visitArms rest)

def visitBlock : Block → DM Block
  | .mk span statements value => do
    pushScope []
    let statements ← visitStmts statements
    let value ← visitOption value
    popScope
    return .mk span statements value

/-- `visit_block` of a pointer that may be null. -/
def visitOptBlock : Option Block → DM (Option Block)
  | none => return none
  | some block => return some (← visitBlock block)

def visitStmts : List Stmt → DM (List Stmt)
  | [] => return []
  | stmt :: rest => return (← visitStmt stmt) :: (← visitStmts rest)

def visitStmt : Stmt → DM Stmt
  | .decl span pattern type init => do
    -- the initialiser comes first: `x := x` reads the outer `x`
    let init ← visitExpr init
    let pattern ← visitPattern pattern
    return .decl span pattern type init
  | .reassign span place compound op value =>
    return .reassign span (← visitExpr place) compound op (← visitExpr value)
  | .expr span value => return .expr span (← visitExpr value)

end

/-! ## Items -/

def visitParams : List FnParam → DM (List FnParam)
  | [] => return []
  | param :: rest =>
    return { param with pattern := ← visitPattern param.pattern } :: (← visitParams rest)

def visitFn (fn : FnItem) : DM FnItem := do
  pushScope []
  let params ← visitParams fn.params
  let body ← visitBlock fn.body
  popScope
  return { fn with params := params, body := body }

/-- The `Static` and `Const` cases of `visit_item`. -/
def visitGlobal (decl : StaticItem) : DM StaticItem := do
  pushScope []
  let init ← visitExpr decl.init
  popScope
  return { decl with init := init }

def visitMethods : List FnItem → DM (List FnItem)
  | [] => return []
  | method :: rest => return (← visitFn method) :: (← visitMethods rest)

mutual

def visitItem : Item → DM Item
  | .fn fn => return .fn (← visitFn fn)
  | .struct decl => return .struct decl
  | .enum decl => return .enum decl
  | .impl impl => return .impl { impl with methods := ← visitMethods impl.methods }
  | .mod span isPub name items isInline =>
    return .mod span isPub name (← visitItems items) isInline
  | .static decl => return .static (← visitGlobal decl)
  | .const decl => return .const (← visitGlobal decl)
  | .use use => return .use use

def visitItems : List Item → DM (List Item)
  | [] => return []
  | item :: rest => return (← visitItem item) :: (← visitItems rest)

end

def run (items : List Item) : DM (List Item) := do
  pushScope []
  let items ← visitItems items
  popScope
  return items

end Desugar

/-- `desugar_shadowing`: the items with their new names, and the bag. -/
def desugarShadowing (items : List Item) (bag : DiagBag) : List Item × DiagBag :=
  let (items, s) := Desugar.run items ⟨0, [], bag⟩
  (items, s.bag)

end Alcy.Parser
