import Alcy.Diag

/-! The syntax tree (`src/ast/ast.h`). Kind-tagged structs become one inductive a
family; arena spans become lists, nullable pointers become options. -/

namespace Alcy.Ast
open Alcy.Diag (Span)

structure Ident where
  name : String
  span : Span
  deriving Repr, DecidableEq, Inhabited

structure Path where
  segments : List Ident
  span : Span
  deriving Repr, DecidableEq, Inhabited

/-! ## Types -/

inductive PrimitiveKind where
  | i8 | i16 | i32 | i64 | i128 | isize
  | u8 | u16 | u32 | u64 | u128 | usize
  | f32 | f64 | bool | str
  deriving Repr, DecidableEq, Inhabited

/-- `ast::Type` and the structs that embed it. -/
inductive Ty where
  | primitive (span : Span) (primitive : PrimitiveKind)
  | unit (span : Span)
  | never (span : Span)
  | str (span : Span)
  | tuple (span : Span) (elements : List Ty)
  | path (span : Span) (path : Path) (args : List Ty)
  | ref (span : Span) (isMut : Bool) (inner : Ty)
  deriving Repr, Inhabited

def Ty.span : Ty → Span
  | .primitive span _ | .unit span | .never span | .str span | .tuple span _
  | .path span _ _ | .ref span _ _ => span

/-! ## Literals and patterns -/

inductive LiteralKind where
  | integer | float | string | char | bool
  deriving Repr, DecidableEq, Inhabited

/-- The spelling keeps suffixes and quotes; later stages read the value from it. -/
structure Literal where
  kind : LiteralKind
  span : Span
  spelling : String
  deriving Repr, DecidableEq, Inhabited

/-- `ast::Pattern`. A tuple pattern without a path is a plain tuple; with one it
names an enum variant. -/
inductive Pattern where
  | wildcard (span : Span)
  | ident (span : Span) (name : Ident)
  | mutIdent (span : Span) (name : Ident)
  | literal (span : Span) (value : Literal)
  | tuple (span : Span) (path : Option Path) (elements : List Pattern)
  | struct (span : Span) (path : Path) (fields : List (Ident × Pattern))
  | ref (span : Span) (isMut : Bool) (inner : Pattern)
  | or (span : Span) (alternatives : List Pattern)
  deriving Repr, Inhabited

def Pattern.span : Pattern → Span
  | .wildcard span | .ident span _ | .mutIdent span _ | .literal span _ | .tuple span _ _
  | .struct span _ _ | .ref span _ _ | .or span _ => span

/-! ## Expressions, blocks and statements -/

inductive UnaryOp where
  | neg | not | bitNot
  deriving Repr, DecidableEq, Inhabited

inductive BinaryOp where
  | add | sub | mul | div | mod | pow
  | bitAnd | bitOr | bitXor | shl | shr
  | eq | notEq | gt | lt | gtEq | ltEq
  | and | or
  deriving Repr, DecidableEq, Inhabited

mutual

/-- `ast::Expr` and the structs that embed it. -/
inductive Expr where
  | literal (span : Span) (value : Literal)
  | path (span : Span) (path : Path)
  | struct (span : Span) (path : Path) (init : List FieldInit) (baseExpr : Option Expr)
  | tuple (span : Span) (elements : List Expr)
  | unary (span : Span) (op : UnaryOp) (inner : Expr)
  | borrow (span : Span) (isMut : Bool) (inner : Expr)
  | binary (span : Span) (op : BinaryOp) (lhs rhs : Expr)
  | cast (span : Span) (inner : Expr) (type : Ty)
  | call (span : Span) (callee : Expr) (args : List Expr)
  | methodCall (span : Span) (receiver : Expr) (name : Ident) (args : List Expr)
  | field (span : Span) (receiver : Expr) (name : Ident)
  | index (span : Span) (receiver index : Expr)
  | question (span : Span) (inner : Expr)
  | ifExpr (span : Span) (cond : Cond) (thenBlock : Block) (elseBlock : Option Block)
  | matchExpr (span : Span) (scrutinee : Expr) (arms : List MatchArm)
  | loop (span : Span) (body : Block)
  | whileExpr (span : Span) (cond : Cond) (body : Block)
  | block (span : Span) (block : Block)
  | returnExpr (span : Span) (value : Option Expr)
  | breakExpr (span : Span)
  | continueExpr (span : Span)
  | range (span : Span) (start stop : Option Expr) (inclusive : Bool)

/-- `ast::Cond`: a boolean expression or `pattern := init`. -/
inductive Cond where
  | pattern (pattern : Pattern) (init : Expr)
  | value (value : Expr)

inductive MatchArm where
  | mk (pattern : Pattern) (body : Expr)

inductive FieldInit where
  | mk (name : Ident) (value : Expr)

/-- `ast::Block`: `{}` has no statements and no value. -/
inductive Block where
  | mk (span : Span) (statements : List Stmt) (value : Option Expr)

inductive Stmt where
  | decl (span : Span) (pattern : Pattern) (type : Option Ty) (init : Expr)
  | reassign (span : Span) (place : Expr) (compound : Bool) (op : BinaryOp) (value : Expr)
  | expr (span : Span) (value : Expr)

end

instance : Inhabited Expr := ⟨.breakExpr default⟩
instance : Inhabited Block := ⟨.mk default [] none⟩

deriving instance Repr for Expr, Cond, MatchArm, FieldInit, Block, Stmt

def Expr.span : Expr → Span
  | .literal span _ | .path span _ | .struct span _ _ _ | .tuple span _ | .unary span _ _
  | .borrow span _ _ | .binary span _ _ _ | .cast span _ _ | .call span _ _
  | .methodCall span _ _ _ | .field span _ _ | .index span _ _ | .question span _
  | .ifExpr span _ _ _ | .matchExpr span _ _ | .loop span _ | .whileExpr span _ _
  | .block span _ | .returnExpr span _ | .breakExpr span | .continueExpr span
  | .range span _ _ _ => span

def Block.span : Block → Span
  | .mk span _ _ => span

/-! ## Items -/

structure FnParam where
  pattern : Pattern
  type : Ty
  deriving Repr, Inhabited

/-- `ast::FnItem`; a missing return type means `()`. -/
structure FnItem where
  span : Span
  isPub : Bool
  name : Ident
  params : List FnParam
  returnType : Option Ty
  body : Block
  deriving Repr, Inhabited

structure StructField where
  name : Ident
  type : Ty
  deriving Repr, Inhabited

structure StructItem where
  span : Span
  isPub : Bool
  name : Ident
  fields : List StructField
  deriving Repr, Inhabited

/-- `ast::EnumVariant`; the fields are empty for unit variants. -/
structure EnumVariant where
  name : Ident
  fields : List Ty
  deriving Repr, Inhabited

structure EnumItem where
  span : Span
  isPub : Bool
  name : Ident
  variants : List EnumVariant
  deriving Repr, Inhabited

structure ImplItem where
  span : Span
  isPub : Bool
  type : Ty
  methods : List FnItem
  deriving Repr, Inhabited

/-- `ast::StaticItem` and `ast::ConstItem`, which have the same fields. -/
structure StaticItem where
  span : Span
  isPub : Bool
  name : Ident
  type : Ty
  init : Expr
  deriving Repr, Inhabited

structure UseItem where
  span : Span
  isPub : Bool
  path : Path
  aliasName : Option Ident
  deriving Repr, DecidableEq, Inhabited

inductive Item where
  | fn (fn : FnItem)
  | struct (decl : StructItem)
  | enum (decl : EnumItem)
  | impl (impl : ImplItem)
  | mod (span : Span) (isPub : Bool) (name : Ident) (items : List Item) (isInline : Bool)
  | static (decl : StaticItem)
  | const (decl : StaticItem)
  | use (use : UseItem)
  deriving Repr, Inhabited

def Item.span : Item → Span
  | .fn d => d.span
  | .struct d => d.span
  | .enum d => d.span
  | .impl d => d.span
  | .mod span _ _ _ _ => span
  | .static d => d.span
  | .const d => d.span
  | .use d => d.span

end Alcy.Ast
