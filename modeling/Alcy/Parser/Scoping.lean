import Alcy.Parser.Desugar

/-! # Lexical scoping

The binding structure of a tree, by the rules of the language and without the
pass: every binder is replaced by its number, every single-segment value path by
the number of the binder it refers to, and a path that refers to no local by its
own name, marked as free. Two trees with the same nameless form differ in
nothing but the spelling of their locals. -/
namespace Alcy.Parser.Scoping
open Alcy.Ast

/-- The binders in scope with their numbers, innermost scope first. -/
abbrev Env := List (List (String × Nat))

/-- How many binders were numbered, and the names of those that were declared
while a binder of the same name was visible. -/
structure Numbering where
  next : Nat
  clashes : List String
  deriving Repr, DecidableEq

abbrev NM := StateM Numbering

def Env.binder (env : Env) (name : String) : Option Nat :=
  (env.flatten.find? (·.1 == name)).map (·.2)

/-- The nameless spelling: a binder's number or a free name. -/
def spell (name : String) : Option Nat → String
  | some n => "#" ++ toString n
  | none => "@" ++ name

/-- Nameless spellings tell binders and free names apart. -/
theorem spell_eq_iff {x y : String} {b b' : Option Nat} :
    spell x b = spell y b' ↔ b = b' ∧ (b = none → x = y) := by
  refine ⟨fun h => ?_, fun ⟨hb, hx⟩ => ?_⟩
  · have hlist := congrArg String.toList h
    cases b <;> cases b' <;> simp only [spell, String.toList_append] at hlist
    · exact ⟨rfl, fun _ => String.ext (List.append_cancel_left hlist)⟩
    · cases hlist
    · cases hlist
    · have hdigits := congrArg (fun ds => Nat.ofDigitChars 10 ds 0)
        (List.append_cancel_left hlist)
      exact ⟨congrArg some (by simpa [Nat.toString_eq_ofList_toDigits] using hdigits),
        fun h => by cases h⟩
  · subst hb
    cases b with
    | some n => rfl
    | none => rw [hx rfl]

def Env.spell (env : Env) (name : String) : String := Scoping.spell name (env.binder name)

def Env.declare (env : Env) (name : String) (n : Nat) : Env := env.modifyHead (· ++ [(name, n)])

/-- Numbers a binder and declares it in the innermost scope. -/
def bindName (env : Env) (name : Ident) : NM (Ident × Env) := fun s =>
  ((⟨spell name.name (some s.next), name.span⟩, env.declare name.name s.next),
    ⟨s.next + 1, if (env.binder name.name).isSome then s.clashes ++ [name.name] else s.clashes⟩)

/-! ## Patterns -/

mutual

/-- Maps the names of the binders in a pattern. -/
def mapNames (f : String → String) : Pattern → Pattern
  | .wildcard span => .wildcard span
  | .ident span name => .ident span ⟨f name.name, name.span⟩
  | .mutIdent span name => .mutIdent span ⟨f name.name, name.span⟩
  | .literal span value => .literal span value
  | .tuple span path elements => .tuple span path (mapNamesAll f elements)
  | .struct span path fields => .struct span path (mapNamesFields f fields)
  | .ref span isMut inner => .ref span isMut (mapNames f inner)
  | .or span alternatives => .or span (mapNamesAll f alternatives)

def mapNamesAll (f : String → String) : List Pattern → List Pattern
  | [] => []
  | p :: rest => mapNames f p :: mapNamesAll f rest

def mapNamesFields (f : String → String) : List (Ident × Pattern) → List (Ident × Pattern)
  | [] => []
  | (name, p) :: rest => (name, mapNames f p) :: mapNamesFields f rest

end

mutual

/-- The nameless pattern and the scopes with its binders. The first alternative of
an or-pattern binds; the names in the others are its binders. -/
def namePattern (env : Env) : Pattern → NM (Pattern × Env)
  | .wildcard span => return (.wildcard span, env)
  | .ident span name => do
    let (name, env) ← bindName env name
    return (.ident span name, env)
  | .mutIdent span name => do
    let (name, env) ← bindName env name
    return (.mutIdent span name, env)
  | .literal span value => return (.literal span value, env)
  | .tuple span path elements => do
    let (elements, env) ← namePatterns env elements
    return (.tuple span path elements, env)
  | .struct span path fields => do
    let (fields, env) ← nameFieldPatterns env fields
    return (.struct span path fields, env)
  | .ref span isMut inner => do
    let (inner, env) ← namePattern env inner
    return (.ref span isMut inner, env)
  | .or span [] => return (.or span [], env)
  | .or span (first :: rest) => do
    let (first, inner) ← namePattern ([] :: env) first
    let bound := inner.headD []
    return (.or span (first :: mapNamesAll (Env.spell [bound]) rest), env.modifyHead (· ++ bound))

def namePatterns (env : Env) : List Pattern → NM (List Pattern × Env)
  | [] => return ([], env)
  | p :: rest => do
    let (p, env) ← namePattern env p
    let (rest, env) ← namePatterns env rest
    return (p :: rest, env)

def nameFieldPatterns (env : Env) : List (Ident × Pattern) → NM (List (Ident × Pattern) × Env)
  | [] => return ([], env)
  | (name, p) :: rest => do
    let (p, env) ← namePattern env p
    let (rest, env) ← nameFieldPatterns env rest
    return ((name, p) :: rest, env)

end

/-! ## Expressions, blocks and statements -/

def namePath (env : Env) (path : Path) : Path :=
  match path.segments with
  | [segment] => ⟨[⟨env.spell segment.name, segment.span⟩], path.span⟩
  | _ => path

mutual

def nameExpr (env : Env) : Expr → NM Expr
  | .literal span value => return .literal span value
  | .path span path => return .path span (namePath env path)
  | .struct span path init baseExpr =>
    return .struct span path (← nameFieldInits env init) (← nameOption env baseExpr)
  | .tuple span elements => return .tuple span (← nameExprs env elements)
  | .unary span op inner => return .unary span op (← nameExpr env inner)
  | .borrow span isMut inner => return .borrow span isMut (← nameExpr env inner)
  | .binary span op lhs rhs => return .binary span op (← nameExpr env lhs) (← nameExpr env rhs)
  | .cast span inner type => return .cast span (← nameExpr env inner) type
  | .call span callee args => return .call span (← nameExpr env callee) (← nameExprs env args)
  | .methodCall span receiver name args =>
    return .methodCall span (← nameExpr env receiver) name (← nameExprs env args)
  | .field span receiver name => return .field span (← nameExpr env receiver) name
  | .index span receiver index =>
    return .index span (← nameExpr env receiver) (← nameExpr env index)
  | .question span inner => return .question span (← nameExpr env inner)
  | .ifExpr span (.pattern pattern init) thenBlock elseBlock => do
    let init ← nameExpr env init
    let (pattern, inner) ← namePattern ([] :: env) pattern
    return .ifExpr span (.pattern pattern init) (← nameBlock inner thenBlock)
      (← nameOptBlock env elseBlock)
  | .ifExpr span (.value value) thenBlock elseBlock =>
    return .ifExpr span (.value (← nameExpr env value)) (← nameBlock env thenBlock)
      (← nameOptBlock env elseBlock)
  | .matchExpr span scrutinee arms =>
    return .matchExpr span (← nameExpr env scrutinee) (← nameArms env arms)
  | .loop span body => return .loop span (← nameBlock env body)
  | .whileExpr span (.pattern pattern init) body => do
    let init ← nameExpr env init
    let (pattern, inner) ← namePattern ([] :: env) pattern
    return .whileExpr span (.pattern pattern init) (← nameBlock inner body)
  | .whileExpr span (.value value) body =>
    return .whileExpr span (.value (← nameExpr env value)) (← nameBlock env body)
  | .block span block => return .block span (← nameBlock env block)
  | .returnExpr span value => return .returnExpr span (← nameOption env value)
  | .breakExpr span => return .breakExpr span
  | .continueExpr span => return .continueExpr span
  | .range span start stop inclusive =>
    return .range span (← nameOption env start) (← nameOption env stop) inclusive

def nameExprs (env : Env) : List Expr → NM (List Expr)
  | [] => return []
  | e :: rest => return (← nameExpr env e) :: (← nameExprs env rest)

def nameOption (env : Env) : Option Expr → NM (Option Expr)
  | none => return none
  | some e => return some (← nameExpr env e)

def nameFieldInits (env : Env) : List FieldInit → NM (List FieldInit)
  | [] => return []
  | .mk name value :: rest =>
    return .mk name (← nameExpr env value) :: (← nameFieldInits env rest)

/-- The binders of an arm are visible in its body only. -/
def nameArms (env : Env) : List MatchArm → NM (List MatchArm)
  | [] => return []
  | .mk pattern body :: rest => do
    let (pattern, inner) ← namePattern ([] :: env) pattern
    return .mk pattern (← nameExpr inner body) :: (← nameArms env rest)

def nameBlock (env : Env) : Block → NM Block
  | .mk span statements value => do
    let (statements, inner) ← nameStmts ([] :: env) statements
    return .mk span statements (← nameOption inner value)

def nameOptBlock (env : Env) : Option Block → NM (Option Block)
  | none => return none
  | some block => return some (← nameBlock env block)

def nameStmts (env : Env) : List Stmt → NM (List Stmt × Env)
  | [] => return ([], env)
  | stmt :: rest => do
    let (stmt, env) ← nameStmt env stmt
    let (rest, env) ← nameStmts env rest
    return (stmt :: rest, env)

/-- A declaration's binders are visible after it, not in its initialiser. -/
def nameStmt (env : Env) : Stmt → NM (Stmt × Env)
  | .decl span pattern type init => do
    let init ← nameExpr env init
    let (pattern, env) ← namePattern env pattern
    return (.decl span pattern type init, env)
  | .reassign span place compound op value => do
    let place ← nameExpr env place
    return (.reassign span place compound op (← nameExpr env value), env)
  | .expr span value => return (.expr span (← nameExpr env value), env)

end

/-! ## Items -/

def nameParams (env : Env) : List FnParam → NM (List FnParam × Env)
  | [] => return ([], env)
  | param :: rest => do
    let (pattern, env) ← namePattern env param.pattern
    let (rest, env) ← nameParams env rest
    return ({ param with pattern := pattern } :: rest, env)

/-- The parameters and the body of a function have scopes of their own. -/
def nameFn (env : Env) (fn : FnItem) : NM FnItem := do
  let (params, inner) ← nameParams ([] :: env) fn.params
  return { fn with params := params, body := ← nameBlock inner fn.body }

def nameGlobal (env : Env) (decl : StaticItem) : NM StaticItem := do
  return { decl with init := ← nameExpr ([] :: env) decl.init }

def nameMethods (env : Env) : List FnItem → NM (List FnItem)
  | [] => return []
  | method :: rest => return (← nameFn env method) :: (← nameMethods env rest)

mutual

def nameItem (env : Env) : Item → NM Item
  | .fn fn => return .fn (← nameFn env fn)
  | .struct decl => return .struct decl
  | .enum decl => return .enum decl
  | .impl impl => return .impl { impl with methods := ← nameMethods env impl.methods }
  | .mod span isPub name items isInline =>
    return .mod span isPub name (← nameItems env items) isInline
  | .static decl => return .static (← nameGlobal env decl)
  | .const decl => return .const (← nameGlobal env decl)
  | .use use => return .use use

def nameItems (env : Env) : List Item → NM (List Item)
  | [] => return []
  | item :: rest => return (← nameItem env item) :: (← nameItems env rest)

end

/-- The items with numbers for their binders; no local is in scope around them. -/
def nameless (items : List Item) : List Item := (nameItems [[]] items ⟨0, []⟩).1

/-- The binders that have the name of a visible one. -/
def clashes (items : List Item) : List String := (nameItems [[]] items ⟨0, []⟩).2.clashes

end Alcy.Parser.Scoping
