import Alcy.Ast

/-! # Trees without their spans

Two trees that differ in spans only are the same after `plain`. -/
namespace Alcy.Ast

def Ident.plain (name : Ident) : Ident := ⟨name.name, default⟩

def Path.plain (path : Path) : Path := ⟨path.segments.map Ident.plain, default⟩

def Literal.plain (value : Literal) : Literal := ⟨value.kind, default, value.spelling⟩

mutual

def Ty.plain : Ty → Ty
  | .primitive _ kind => .primitive default kind
  | .unit _ => .unit default
  | .never _ => .never default
  | .str _ => .str default
  | .tuple _ elements => .tuple default (Ty.plainAll elements)
  | .path _ name args => .path default name.plain (Ty.plainAll args)
  | .ref _ isMut inner => .ref default isMut inner.plain

def Ty.plainAll : List Ty → List Ty
  | [] => []
  | type :: types => type.plain :: Ty.plainAll types

end

mutual

def Pattern.plain : Pattern → Pattern
  | .wildcard _ => .wildcard default
  | .ident _ name => .ident default name.plain
  | .mutIdent _ name => .mutIdent default name.plain
  | .literal _ value => .literal default value.plain
  | .tuple _ name elements => .tuple default (name.map Path.plain) (Pattern.plainAll elements)
  | .struct _ name fields => .struct default name.plain (Pattern.plainFields fields)
  | .ref _ isMut inner => .ref default isMut inner.plain
  | .or _ alternatives => .or default (Pattern.plainAll alternatives)

def Pattern.plainAll : List Pattern → List Pattern
  | [] => []
  | pattern :: patterns => pattern.plain :: Pattern.plainAll patterns

def Pattern.plainFields : List (Ident × Pattern) → List (Ident × Pattern)
  | [] => []
  | (name, pattern) :: fields => (name.plain, pattern.plain) :: Pattern.plainFields fields

end

mutual

def Expr.plain : Expr → Expr
  | .literal _ value => .literal default value.plain
  | .path _ name => .path default name.plain
  | .struct _ name init baseExpr =>
    .struct default name.plain (FieldInit.plainAll init) (Expr.plainOption baseExpr)
  | .tuple _ elements => .tuple default (Expr.plainAll elements)
  | .unary _ op inner => .unary default op inner.plain
  | .borrow _ isMut inner => .borrow default isMut inner.plain
  | .binary _ op lhs rhs => .binary default op lhs.plain rhs.plain
  | .cast _ inner type => .cast default inner.plain type.plain
  | .call _ callee args => .call default callee.plain (Expr.plainAll args)
  | .methodCall _ receiver name args =>
    .methodCall default receiver.plain name.plain (Expr.plainAll args)
  | .field _ receiver name => .field default receiver.plain name.plain
  | .index _ receiver place => .index default receiver.plain place.plain
  | .question _ inner => .question default inner.plain
  | .ifExpr _ cond thenBlock elseBlock =>
    .ifExpr default cond.plain thenBlock.plain (Block.plainOption elseBlock)
  | .matchExpr _ scrutinee arms => .matchExpr default scrutinee.plain (MatchArm.plainAll arms)
  | .loop _ body => .loop default body.plain
  | .whileExpr _ cond body => .whileExpr default cond.plain body.plain
  | .block _ body => .block default body.plain
  | .returnExpr _ value => .returnExpr default (Expr.plainOption value)
  | .breakExpr _ => .breakExpr default
  | .continueExpr _ => .continueExpr default
  | .range _ start stop inclusive =>
    .range default (Expr.plainOption start) (Expr.plainOption stop) inclusive

def Expr.plainAll : List Expr → List Expr
  | [] => []
  | expr :: exprs => expr.plain :: Expr.plainAll exprs

def Expr.plainOption : Option Expr → Option Expr
  | none => none
  | some expr => some expr.plain

def Cond.plain : Cond → Cond
  | .pattern lhs init => .pattern lhs.plain init.plain
  | .value inner => .value inner.plain

def MatchArm.plain : MatchArm → MatchArm
  | .mk pattern body => .mk pattern.plain body.plain

def MatchArm.plainAll : List MatchArm → List MatchArm
  | [] => []
  | arm :: arms => arm.plain :: MatchArm.plainAll arms

def FieldInit.plain : FieldInit → FieldInit
  | .mk name value => .mk name.plain value.plain

def FieldInit.plainAll : List FieldInit → List FieldInit
  | [] => []
  | field :: fields => field.plain :: FieldInit.plainAll fields

def Block.plain : Block → Block
  | .mk _ statements value => .mk default (Stmt.plainAll statements) (Expr.plainOption value)

def Block.plainOption : Option Block → Option Block
  | none => none
  | some block => some block.plain

def Stmt.plain : Stmt → Stmt
  | .decl _ pattern type init => .decl default pattern.plain (type.map Ty.plain) init.plain
  | .reassign _ place compound op value => .reassign default place.plain compound op value.plain
  | .expr _ value => .expr default value.plain

def Stmt.plainAll : List Stmt → List Stmt
  | [] => []
  | stmt :: stmts => stmt.plain :: Stmt.plainAll stmts

end

/-! The lists are mapped. -/

theorem Ty.plainAll_eq (types : List Ty) : Ty.plainAll types = types.map Ty.plain := by
  induction types with
  | nil => rfl
  | cons type types ih => rw [Ty.plainAll, ih, List.map_cons]

theorem Pattern.plainAll_eq (patterns : List Pattern) :
    Pattern.plainAll patterns = patterns.map Pattern.plain := by
  induction patterns with
  | nil => rfl
  | cons pattern patterns ih => rw [Pattern.plainAll, ih, List.map_cons]

theorem Pattern.plainFields_eq (fields : List (Ident × Pattern)) :
    Pattern.plainFields fields = fields.map fun field => (field.1.plain, field.2.plain) := by
  induction fields with
  | nil => rfl
  | cons field fields ih => rw [Pattern.plainFields, ih, List.map_cons]

theorem Expr.plainAll_eq (exprs : List Expr) : Expr.plainAll exprs = exprs.map Expr.plain := by
  induction exprs with
  | nil => rfl
  | cons expr exprs ih => rw [Expr.plainAll, ih, List.map_cons]

theorem FieldInit.plainAll_eq (fields : List FieldInit) :
    FieldInit.plainAll fields = fields.map FieldInit.plain := by
  induction fields with
  | nil => rfl
  | cons field fields ih => rw [FieldInit.plainAll, ih, List.map_cons]

theorem MatchArm.plainAll_eq (arms : List MatchArm) :
    MatchArm.plainAll arms = arms.map MatchArm.plain := by
  induction arms with
  | nil => rfl
  | cons arm arms ih => rw [MatchArm.plainAll, ih, List.map_cons]

theorem Stmt.plainAll_eq (stmts : List Stmt) : Stmt.plainAll stmts = stmts.map Stmt.plain := by
  induction stmts with
  | nil => rfl
  | cons stmt stmts ih => rw [Stmt.plainAll, ih, List.map_cons]

end Alcy.Ast
