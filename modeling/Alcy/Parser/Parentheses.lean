import Alcy.Parser.Refusing

/-! # Parentheses

One expression in parentheses is itself, several are a tuple, and none at all is refused: the loop of
`parse_primary` wants a first expression, where `parse_type` looks for the closing parenthesis. -/
namespace Alcy.Parser
open Alcy.Ast Alcy.Diag
open Alcy.Lexer (Token TokenKind)

/-- Expressions in parentheses, with or without a comma after the last one. -/
def parenthesised (elements : List ExprText) (trailing : Bool) : ExprText :=
  match elements, trailing with
  | [inner], false => .paren inner
  | elements, trailing => .tuple elements trailing

variable {inp : Input} {m : Mode} {ls : List Lexeme} {s : PState}

theorem parenthesised_level (elements : List ExprText) (trailing : Bool) :
    (parenthesised elements trailing).level = 15 := by
  fun_cases parenthesised elements trailing <;> rfl

theorem parenthesised_ends (elements : List ExprText) (trailing allow : Bool) (k : TokenKind) :
    (parenthesised elements trailing).ends allow k = true := by
  fun_cases parenthesised elements trailing <;> rfl

theorem parenthesised_legible {elements : List ExprText} {trailing allow : Bool}
    (hne : elements ≠ []) (h : ExprText.listLegible allow .rParen trailing elements = true) :
    (parenthesised elements trailing).legible allow = true := by
  fun_cases parenthesised elements trailing with
  | case1 inner =>
    rw [ExprText.listLegible, ExprText.listLegible, Bool.and_true] at h
    exact h
  | case2 elements trailing hone =>
    rw [ExprText.legible, List.isEmpty_eq_false_iff.2 hne]
    cases elements with
    | nil => exact absurd rfl hne
    | cons first rest =>
      cases rest with
      | cons => exact (Bool.or_false trailing).symm ▸ h
      | nil =>
        cases trailing with
        | true => exact h
        | false => exact absurd rfl (hone first rfl)

/-- The tokens `(` and `)` are no expression. -/
theorem parsePrimary_refuses_unit {back : ExprRec} {l : Lexeme} (hs : At inp m (symbol .lParen :: l :: ls) s)
    (hback : ∀ s', At inp m (l :: ls) s' → Refuses m back.expr s') :
    Refuses m (inp.parsePrimary back) s := by
  refine .here (.peek hs fun t ht => ?_)
  rw [show t.kind = .lParen from congrArg Lexeme.kind ht]
  refine .advance hs TokenKind.noConfusion fun s1 hs1 => Refuses.left ?_
  refine .after (hback s1 hs1) (hs.pos_lt hs1 (Nat.lt_succ_self _))

/-- `(a, 1)` and, with the other kinds in place of the elements, `(i32, bool)`. -/
def pairInput (first second : TokenKind) : Input where
  tokens := [⟨.lParen, ⟨0, 0, 0⟩⟩, ⟨first, ⟨0, 0, 1⟩⟩, ⟨.comma, ⟨0, 1, 0⟩⟩, ⟨second, ⟨0, 1, 1⟩⟩,
    ⟨.rParen, ⟨0, 2, 0⟩⟩, ⟨.eof, ⟨0, 2, 0⟩⟩]
  bytes := [97, 49]
  file := 0

/-- `()`. -/
def unitInput : Input where
  tokens := [⟨.lParen, ⟨0, 0, 1⟩⟩, ⟨.rParen, ⟨0, 1, 1⟩⟩, ⟨.eof, ⟨0, 2, 0⟩⟩]
  bytes := [40, 41]
  file := 0

end Alcy.Parser
