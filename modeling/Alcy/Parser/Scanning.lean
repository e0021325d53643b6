import Alcy.Parser.ExprText

/-! # What `scan_lead` sees of a text

`scan_lead` walks over tokens, not over a tree. Every text closes the brackets it opens, so inside
brackets the walk comes back to where it was, and outside it either finds something or goes
through. -/
namespace Alcy.Parser
open Alcy.Ast Alcy.Diag
open Alcy.Lexer (Token TokenKind)
open Input (StmtLead)

/-! ## The walk over lexemes -/

def Scan.lead : Scan → StmtLead
  | .found lead => lead
  | .through _ => .none

theorem scan_append (text text' : List Lexeme) (depth : Nat) : scan (text ++ text') depth =
    match scan text depth with
    | .found lead => .found lead
    | .through depth => scan text' depth := by
  induction text generalizing depth with
  | nil => rfl
  | cons l ls ih =>
    rw [List.cons_append, scan, scan]
    split
    · rfl
    split
    · rfl
    split
    · rfl
    split
    · exact ih _
    split
    · exact ih _
    · exact ih _

variable {inp : Input} {m : Mode} {ls : List Lexeme} {s : PState}

theorem scanLeadFrom_eq (tokens : List Token) (hstream : Stream (tokens.map inp.lexeme))
    (depth : Nat) :
    Input.scanLeadFrom tokens depth = (scan (tokens.map inp.lexeme) depth).lead := by
  induction tokens generalizing depth with
  | nil => exact absurd rfl hstream.ne_nil
  | cons t tokens ih =>
    have hsig := hstream.head
    change significant t.kind = true at hsig
    rw [significant, Bool.and_eq_true, Bool.and_eq_true, bne_iff_ne, bne_iff_ne,
      Bool.not_eq_true'] at hsig
    have hskip : ¬ (t.kind = .error ∨ t.kind = .docComment ∨ isReserved t.kind = true) := by
      simp [hsig.1.1, hsig.1.2, hsig.2]
    have htail : ∀ depth, Input.scanLeadFrom tokens depth =
        (scan (tokens.map inp.lexeme) depth).lead := by
      intro depth
      cases tokens with
      | nil => rfl
      | cons t' tokens =>
        exact ih (hstream.tail (hstream.live (List.cons_ne_nil (inp.lexeme t') _))) depth
    simp only [List.map_cons, scan, Input.scanLeadFrom, if_neg hskip, apply_ite Scan.lead, htail]
    rfl

/-- `scan_lead` answers by the text ahead. -/
theorem At.scanLead (h : At inp m ls s) : inp.scanLead s = .ok (some (scan ls 0).lead, s) := by
  have hahead := h.ahead
  have hstream : Stream ((inp.tokens.drop s.pos).map inp.lexeme) := hahead ▸ h.stream
  rw [Input.scanLead, scanLeadFrom_eq _ hstream, hahead]

/-! ## Texts that close what they open -/

/-- Inside brackets, the walk goes through the text. -/
def Nested (text : List Lexeme) : Prop := ∀ depth, scan text (depth + 1) = .through (depth + 1)

/-- Outside brackets, it finds a declaration or a stop, or goes through. -/
structure Even (text : List Lexeme) : Prop where
  inside : Nested text
  outside : scan text 0 = .through 0 ∨ scan text 0 = .found .decl ∨ scan text 0 = .found .none

/-- A kind that is neither a bracket nor an assignment. -/
def evenKind (k : TokenKind) : Bool :=
  !Input.isOpener k && !Input.isCloser k && k != .eq && !isCompoundAssign k

theorem Nested.nil : Nested [] := fun _ => rfl

theorem Nested.append {text text' : List Lexeme} (h : Nested text) (h' : Nested text') :
    Nested (text ++ text') := by
  intro depth
  rw [scan_append, h depth]
  exact h' depth

theorem Nested.single {l : Lexeme} (hopen : Input.isOpener l.kind = false)
    (hclose : Input.isCloser l.kind = false) : Nested [l] := by
  intro depth
  simp [scan, hopen, hclose]

theorem Even.nil : Even [] := ⟨.nil, .inl rfl⟩

theorem Even.append {text text' : List Lexeme} (h : Even text) (h' : Even text') :
    Even (text ++ text') := by
  refine ⟨h.inside.append h'.inside, ?_⟩
  rw [scan_append]
  rcases h.outside with h0 | h0 | h0
  · rw [h0]
    exact h'.outside
  · rw [h0]
    exact .inr (.inl rfl)
  · rw [h0]
    exact .inr (.inr rfl)

theorem Even.single {l : Lexeme} (h : evenKind l.kind = true) : Even [l] := by
  simp only [evenKind, Bool.and_eq_true, Bool.not_eq_true', bne_iff_ne] at h
  refine ⟨.single h.1.1.1 h.1.1.2, ?_⟩
  simp only [scan, h.1.1.1, h.1.1.2, h.1.2, h.2, Bool.false_and, Bool.false_eq_true, or_false,
    and_false, if_false, true_and]
  split
  · exact .inr (.inl rfl)
  split
  · exact .inr (.inr rfl)
  · exact .inl rfl

theorem Even.cons {l : Lexeme} {text : List Lexeme} (h : evenKind l.kind = true)
    (htext : Even text) : Even (l :: text) := (Even.single h).append htext

theorem Even.parens {text : List Lexeme} (h : Nested text) :
    Even (symbol .lParen :: (text ++ [symbol .rParen])) := by
  constructor
  · intro depth
    change scan (text ++ [symbol .rParen]) (depth + 2) = _
    rw [scan_append, h (depth + 1)]
    rfl
  · left
    change scan (text ++ [symbol .rParen]) 1 = _
    rw [scan_append, h 0]
    rfl

theorem Even.brackets {text : List Lexeme} (h : Nested text) :
    Even (symbol .lBracket :: (text ++ [symbol .rBracket])) := by
  constructor
  · intro depth
    change scan (text ++ [symbol .rBracket]) (depth + 2) = _
    rw [scan_append, h (depth + 1)]
    rfl
  · left
    change scan (text ++ [symbol .rBracket]) 1 = _
    rw [scan_append, h 0]
    rfl

theorem Even.braces {text : List Lexeme} (h : Nested text) :
    Even (symbol .lBrace :: (text ++ [symbol .rBrace])) := by
  constructor
  · intro depth
    change scan (text ++ [symbol .rBrace]) (depth + 2) = _
    rw [scan_append, h (depth + 1)]
    rfl
  · exact .inr (.inr rfl)

theorem even_comma (b : Bool) : Even (if b = true then [] else [symbol .comma]) := by
  cases b
  · exact .single rfl
  · exact .nil

theorem even_mut (isMut : Bool) : Even (mutText isMut) := by
  cases isMut
  · exact .nil
  · exact .single rfl

theorem evenKind_segment (name : String) : evenKind (segmentKind name) = true := by
  rcases segmentKind_cases name with h | h | h | h | h <;> rw [h] <;> rfl

theorem evenKind_literal (kind : LiteralKind) (spelling : String) :
    evenKind (literalToken kind spelling) = true := by
  cases kind with
  | bool =>
    rw [literalToken]
    split <;> rfl
  | _ => rfl

theorem segmentsText_even (names : List String) : Even (segmentsText names) := by
  induction names with
  | nil => exact .nil
  | cons name names ih => exact .cons rfl (.cons (evenKind_segment name) ih)

theorem PathText.even (path : PathText) : Even path.lexemes :=
  .cons (evenKind_segment path.first) (segmentsText_even path.rest)

/-! ## Types and patterns -/

/-- The walk goes through the text wherever it starts. -/
def Passes (text : List Lexeme) : Prop := ∀ depth, scan text depth = .through depth

theorem Passes.even {text : List Lexeme} (h : Passes text) : Even text :=
  ⟨fun depth => h (depth + 1), .inl (h 0)⟩

theorem Passes.nil : Passes [] := fun _ => rfl

theorem Passes.append {text text' : List Lexeme} (h : Passes text) (h' : Passes text') :
    Passes (text ++ text') := by
  intro depth
  rw [scan_append, h depth]
  exact h' depth

/-- A kind that the walk passes over at any depth. -/
def passKind (k : TokenKind) : Bool := evenKind k && k != .colonEq && k != .semicolon && k != .eof

theorem Passes.single {l : Lexeme} (h : passKind l.kind = true) : Passes [l] := by
  simp only [passKind, evenKind, Bool.and_eq_true, Bool.not_eq_true', bne_iff_ne] at h
  have hleft : l.kind ≠ .lBrace := fun heq => by simp [heq, Input.isOpener] at h
  have hright : l.kind ≠ .rBrace := fun heq => by simp [heq, Input.isOpener, Input.isCloser] at h
  intro depth
  simp [scan, h.1.1.1.1.1.1, h.1.1.1.1.1.2, h.1.1.1.1.2, h.1.1.1.2, h.1.1.2, h.1.2, h.2, hleft, hright]

theorem Passes.cons {l : Lexeme} {text : List Lexeme} (h : passKind l.kind = true)
    (htext : Passes text) : Passes (l :: text) := (Passes.single h).append htext

theorem Passes.parens {text : List Lexeme} (h : Passes text) :
    Passes (symbol .lParen :: (text ++ [symbol .rParen])) := by
  intro depth
  cases depth with
  | zero =>
    change scan (text ++ [symbol .rParen]) 1 = _
    rw [scan_append, h 1]
    rfl
  | succ depth =>
    change scan (text ++ [symbol .rParen]) (depth + 2) = _
    rw [scan_append, h (depth + 2)]
    rfl

theorem passKind_segment (name : String) : passKind (segmentKind name) = true := by
  rcases segmentKind_cases name with h | h | h | h | h <;> rw [h] <;> rfl

theorem segmentsText_passes (names : List String) : Passes (segmentsText names) := by
  induction names with
  | nil => exact .nil
  | cons name names ih => exact .cons rfl (.cons (passKind_segment name) ih)

theorem passes_comma (b : Bool) : Passes (if b = true then [] else [symbol .comma]) := by
  cases b
  · exact .single rfl
  · exact .nil

theorem passes_mut (isMut : Bool) : Passes (mutText isMut) := by
  cases isMut
  · exact .nil
  · exact .single rfl

mutual

theorem TypeText.passes : ∀ type : TypeText, Passes type.halves
  | .primitive kind => by
    rw [TypeText.halves]
    refine .single ?_
    cases kind <;> rfl
  | .never => by
    rw [TypeText.halves]
    exact .single rfl
  | .tuple elements trailing => by
    rw [TypeText.halves]
    exact .parens (TypeText.listPasses _ elements)
  | .path name args => by
    rw [TypeText.halves]
    refine Passes.append (.cons (passKind_segment name.first) (segmentsText_passes name.rest)) ?_
    split
    · exact .nil
    · exact .cons rfl ((TypeText.listPasses _ args).append (.single rfl))
  | .ref isMut inner => by
    rw [TypeText.halves]
    exact .cons rfl ((passes_mut isMut).append inner.passes)

theorem TypeText.listPasses (trailing : Bool) :
    ∀ types, Passes (TypeText.listHalves trailing types)
  | [] => .nil
  | type :: types => by
    rw [TypeText.listHalves]
    exact (type.passes.append (passes_comma _)).append (TypeText.listPasses trailing types)

end

/-- Longest match changes nothing here: closing brackets of types are passed over. -/
theorem scan_munch (text : List Lexeme) (depth : Nat) : scan (munch text) depth = scan text depth := by
  fun_induction munch text generalizing depth with
  | case1 => rfl
  | case2 l => rfl
  | case3 l l' ls h ih => simp [scan, h.1, h.2, ih, isCompoundAssign, Input.isOpener, Input.isCloser]
  | case4 l l' ls h ih =>
    rw [scan, scan]
    simp only [ih]

theorem TypeText.passes_munch (type : TypeText) : Passes (munch type.halves) := by
  intro depth
  rw [scan_munch]
  exact type.passes depth

mutual

theorem PatternText.even : ∀ pattern : PatternText, Even pattern.lexemes
  | .wildcard => by
    rw [PatternText.lexemes]
    exact .single rfl
  | .name text => by
    rw [PatternText.lexemes]
    exact .single (evenKind_segment text)
  | .mutName _ => by
    rw [PatternText.lexemes]
    exact .cons rfl (.single rfl)
  | .literal negative kind spelling => by
    rw [PatternText.lexemes]
    refine .append ?_ (.single (evenKind_literal kind spelling))
    split
    · exact .single rfl
    · exact .nil
  | .tuple elements trailing => by
    rw [PatternText.lexemes]
    exact .parens (PatternText.listEven _ elements).inside
  | .variant path elements trailing => by
    rw [PatternText.lexemes]
    refine path.even.append ?_
    split
    · exact .nil
    · exact .parens (PatternText.listEven _ elements).inside
  | .struct path fields trailing => by
    rw [PatternText.lexemes]
    exact path.even.append (.braces (FieldPatternText.listEven _ fields).inside)
  | .ref isMut inner => by
    rw [PatternText.lexemes]
    exact .cons rfl ((even_mut isMut).append inner.even)
  | .or first others => by
    rw [PatternText.lexemes]
    exact first.even.append (PatternText.alternativesEven others)
  | .paren inner => by
    rw [PatternText.lexemes]
    exact .parens inner.even.inside

theorem PatternText.listEven (trailing : Bool) :
    ∀ patterns, Even (PatternText.listLexemes trailing patterns)
  | [] => .nil
  | pattern :: patterns => by
    rw [PatternText.listLexemes]
    exact (pattern.even.append (even_comma _)).append (PatternText.listEven trailing patterns)

theorem PatternText.alternativesEven : ∀ patterns, Even (PatternText.alternatives patterns)
  | [] => .nil
  | pattern :: patterns => by
    rw [PatternText.alternatives]
    exact .cons rfl (pattern.even.append (PatternText.alternativesEven patterns))

theorem FieldPatternText.even : ∀ field : FieldPatternText, Even field.lexemes
  | .short _ => by
    rw [FieldPatternText.lexemes]
    exact .single rfl
  | .long _ pattern => by
    rw [FieldPatternText.lexemes]
    exact .cons rfl (.cons rfl pattern.even)

theorem FieldPatternText.listEven (trailing : Bool) :
    ∀ fields, Even (FieldPatternText.listLexemes trailing fields)
  | [] => .nil
  | field :: fields => by
    rw [FieldPatternText.listLexemes]
    exact (field.even.append (even_comma _)).append (FieldPatternText.listEven trailing fields)

end

/-! ## Expressions and statements -/

theorem even_member (name : String) : Even [memberText name] := by
  refine .single ?_
  change evenKind (if indexName name = true then .integer else .ident) = true
  split <;> rfl

theorem nested_separators (separators : List Bool) : Nested (separators.map separatorText) := by
  induction separators with
  | nil => exact .nil
  | cons separator separators ih =>
    rw [List.map_cons, ← List.singleton_append]
    cases separator
    · exact (Nested.single rfl rfl).append ih
    · exact (Nested.single rfl rfl).append ih

theorem nested_semicolons (n : Nat) : Nested (List.replicate n (symbol .semicolon)) := by
  induction n with
  | zero => exact .nil
  | succ n ih =>
    rw [List.replicate_succ, ← List.singleton_append]
    exact (Nested.single rfl rfl).append ih

mutual

theorem ExprText.even : ∀ e : ExprText, Even e.lexemes
  | .literal kind spelling => by
    rw [ExprText.lexemes]
    exact .single (evenKind_literal kind spelling)
  | .path name => by
    rw [ExprText.lexemes]
    exact name.even
  | .struct name fields trailing base => by
    rw [ExprText.lexemes]
    exact name.even.append
      (.braces ((FieldText.listEven _ fields).append (ExprText.baseEven base)).inside)
  | .tuple elements trailing => by
    rw [ExprText.lexemes]
    exact .parens (ExprText.listEven _ elements).inside
  | .paren inner => by
    rw [ExprText.lexemes]
    exact .parens inner.even.inside
  | .unary op inner => by
    rw [ExprText.lexemes]
    refine .cons ?_ inner.even
    cases op <;> rfl
  | .borrow isMut inner => by
    rw [ExprText.lexemes]
    exact .cons rfl ((even_mut isMut).append inner.even)
  | .binary op lhs rhs => by
    rw [ExprText.lexemes]
    refine lhs.even.append (.cons ?_ rhs.even)
    cases op <;> rfl
  | .cast inner type => by
    rw [ExprText.lexemes]
    exact inner.even.append (.cons rfl type.passes_munch.even)
  | .call callee args trailing => by
    rw [ExprText.lexemes]
    exact callee.even.append (.parens (ExprText.listEven _ args).inside)
  | .methodCall receiver name args trailing => by
    rw [ExprText.lexemes]
    exact receiver.even.append (.cons rfl (.cons rfl (.parens (ExprText.listEven _ args).inside)))
  | .field receiver name => by
    rw [ExprText.lexemes]
    exact receiver.even.append (.cons rfl (even_member name))
  | .index receiver place => by
    rw [ExprText.lexemes]
    exact receiver.even.append (.brackets place.even.inside)
  | .question inner => by
    rw [ExprText.lexemes]
    exact inner.even.append (.single rfl)
  | .ifExpr cond thenBlock elseBlock => by
    rw [ExprText.lexemes]
    exact .cons rfl (cond.even.append (thenBlock.even.append (BlockText.elseEven elseBlock)))
  | .matchExpr scrutinee arms => by
    rw [ExprText.lexemes]
    exact .cons rfl (scrutinee.even.append (.braces (ArmText.listNested arms)))
  | .loop body => by
    rw [ExprText.lexemes]
    exact .cons rfl body.even
  | .whileExpr cond body => by
    rw [ExprText.lexemes]
    exact .cons rfl (cond.even.append body.even)
  | .block body => by
    rw [ExprText.lexemes]
    exact body.even
  | .returnExpr value => by
    rw [ExprText.lexemes]
    exact .cons rfl (ExprText.optionEven value)
  | .breakExpr => by
    rw [ExprText.lexemes]
    exact .single rfl
  | .continueExpr => by
    rw [ExprText.lexemes]
    exact .single rfl
  | .range start op stop => by
    rw [ExprText.lexemes]
    refine (ExprText.optionEven start).append (.cons ?_ (ExprText.optionEven stop))
    cases op <;> rfl

theorem ExprText.listEven (trailing : Bool) :
    ∀ exprs, Even (ExprText.listLexemes trailing exprs)
  | [] => .nil
  | expr :: exprs => by
    rw [ExprText.listLexemes]
    exact (expr.even.append (even_comma _)).append (ExprText.listEven trailing exprs)

theorem ExprText.optionEven : ∀ expr, Even (ExprText.optionLexemes expr)
  | none => .nil
  | some expr => by
    rw [ExprText.optionLexemes]
    exact expr.even

theorem ExprText.baseEven : ∀ expr, Even (ExprText.baseLexemes expr)
  | none => .nil
  | some expr => by
    rw [ExprText.baseLexemes]
    exact .cons rfl expr.even

theorem FieldText.even : ∀ field : FieldText, Even field.lexemes
  | .mk name value => by
    rw [FieldText.lexemes]
    exact .cons rfl (.cons rfl value.even)

theorem FieldText.listEven (trailing : Bool) :
    ∀ fields, Even (FieldText.listLexemes trailing fields)
  | [] => .nil
  | field :: fields => by
    rw [FieldText.listLexemes]
    exact (field.even.append (even_comma _)).append (FieldText.listEven trailing fields)

theorem CondText.even : ∀ cond : CondText, Even cond.lexemes
  | .pattern lhs init => by
    rw [CondText.lexemes]
    exact lhs.even.append (.cons rfl init.even)
  | .value inner => by
    rw [CondText.lexemes]
    exact inner.even

theorem ArmText.nested : ∀ arm : ArmText, Nested arm.lexemes
  | .mk pattern body separators => by
    rw [ArmText.lexemes]
    exact pattern.even.inside.append ((Even.single (l := symbol .fatArrow) rfl).inside.append
      (body.even.inside.append (nested_separators separators)))

theorem ArmText.listNested : ∀ arms, Nested (ArmText.listLexemes arms)
  | [] => .nil
  | arm :: arms => by
    rw [ArmText.listLexemes]
    exact arm.nested.append (ArmText.listNested arms)

theorem BlockText.even : ∀ block : BlockText, Even block.lexemes
  | .mk lines => by
    rw [BlockText.lexemes]
    exact .braces (LineText.listNested lines)

theorem BlockText.elseEven : ∀ block, Even (BlockText.elseLexemes block)
  | none => .nil
  | some block => by
    rw [BlockText.elseLexemes]
    exact .cons rfl block.even

theorem LineText.nested : ∀ line : LineText, Nested line.lexemes
  | .mk stmt semicolons => by
    rw [LineText.lexemes]
    exact stmt.nested.append (nested_semicolons semicolons)

theorem LineText.listNested : ∀ lines, Nested (LineText.listLexemes lines)
  | [] => .nil
  | line :: lines => by
    rw [LineText.listLexemes]
    exact line.nested.append (LineText.listNested lines)

theorem StmtText.nested : ∀ stmt : StmtText, Nested stmt.lexemes
  | .decl pattern none init => by
    rw [StmtText.lexemes]
    exact (pattern.even.append (.cons rfl init.even)).inside
  | .decl pattern (some type) init => by
    rw [StmtText.lexemes]
    exact (pattern.even.append ((Even.cons rfl type.passes_munch.even).append (.cons rfl init.even))).inside
  | .reassign place op value => by
    rw [StmtText.lexemes]
    refine place.even.inside.append ((Nested.single (l := symbol op.token) ?_ ?_).append
      value.even.inside)
    · cases op <;> rfl
    · cases op <;> rfl
  | .expr value => by
    rw [StmtText.lexemes]
    exact value.even.inside

end

end Alcy.Parser
