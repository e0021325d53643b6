import Alcy.Parser.ReadBack

/-! # Kinds of statements

`parse_stmt` commits itself to what `scan_lead` answers: a declaration or a reassignment is none if the
walk stops at a brace before it comes to the operator, and an expression becomes a declaration if the
walk comes to a `:=` inside it. -/
namespace Alcy.Parser
open Alcy.Ast Alcy.Diag
open Alcy.Lexer (Token TokenKind)
open Input (StmtLead)
open PM

/-! ## What the walk answers -/

theorem scan_parens {text : List Lexeme} (h : Nested text) :
    scan (symbol .lParen :: (text ++ [symbol .rParen])) 0 = .through 0 := by
  change scan (text ++ [symbol .rParen]) 1 = _
  rw [scan_append, h 0]
  rfl

theorem scan_brackets {text : List Lexeme} (h : Nested text) :
    scan (symbol .lBracket :: (text ++ [symbol .rBracket])) 0 = .through 0 := by
  change scan (text ++ [symbol .rBracket]) 1 = _
  rw [scan_append, h 0]
  rfl

theorem scan_lBrace (ls : List Lexeme) : scan (symbol .lBrace :: ls) 0 = .found .none := rfl

theorem PathText.passes (path : PathText) : Passes path.lexemes :=
  .cons (passKind_segment path.first) (segmentsText_passes path.rest)

theorem passKind_literal (kind : LiteralKind) (spelling : String) :
    passKind (literalToken kind spelling) = true := by
  cases kind with
  | bool =>
    rw [literalToken]
    split <;> rfl
  | _ => rfl

mutual

/-- A struct pattern stands outside the parentheses. -/
def PatternText.braced : PatternText → Bool
  | .struct _ _ _ => true
  | .ref _ inner => inner.braced
  | .or first others => first.braced || PatternText.anyBraced others
  | .wildcard | .name _ | .mutName _ | .literal _ _ _ | .tuple _ _ | .variant _ _ _ | .paren _ => false

def PatternText.anyBraced : List PatternText → Bool
  | [] => false
  | pattern :: patterns => pattern.braced || PatternText.anyBraced patterns

end

mutual

theorem PatternText.scan_eq : ∀ pattern : PatternText,
    scan pattern.lexemes 0 = if pattern.braced then .found .none else .through 0
  | .wildcard => by
    rw [PatternText.lexemes, PatternText.braced, if_neg Bool.false_ne_true]
    exact Passes.single (l := symbol .underscore) rfl 0
  | .name text => by
    rw [PatternText.lexemes, PatternText.braced, if_neg Bool.false_ne_true]
    exact Passes.single (l := segment text) (passKind_segment text) 0
  | .mutName text => by
    rw [PatternText.lexemes, PatternText.braced, if_neg Bool.false_ne_true]
    exact Passes.cons (l := symbol .mut) rfl (Passes.single (l := identText text) rfl) 0
  | .literal negative kind spelling => by
    rw [PatternText.lexemes, PatternText.braced, if_neg Bool.false_ne_true]
    have hliteral : Passes [literalText kind spelling] := .single (passKind_literal kind spelling)
    cases negative with
    | true => exact Passes.cons (l := symbol .minus) rfl hliteral 0
    | false => exact hliteral 0
  | .tuple elements trailing => by
    rw [PatternText.lexemes, PatternText.braced, if_neg Bool.false_ne_true]
    exact scan_parens (PatternText.listEven (trailing || elements.length == 1) elements).inside
  | .variant path elements trailing => by
    rw [PatternText.lexemes, PatternText.braced, if_neg Bool.false_ne_true, scan_append, path.passes 0]
    dsimp only
    split
    · rfl
    · exact scan_parens (PatternText.listEven trailing elements).inside
  | .struct path fields trailing => by
    rw [PatternText.lexemes, PatternText.braced, if_pos rfl, scan_append, path.passes 0]
    exact scan_lBrace _
  | .ref isMut inner => by
    have hmut : Passes (symbol .amp :: mutText isMut) := .cons rfl (passes_mut isMut)
    rw [PatternText.lexemes, PatternText.braced, ← List.cons_append, scan_append, hmut 0]
    exact inner.scan_eq
  | .or first others => by
    rw [PatternText.lexemes, PatternText.braced, scan_append, first.scan_eq]
    cases first.braced with
    | true => rfl
    | false => exact PatternText.scan_alternatives others
  | .paren inner => by
    rw [PatternText.lexemes, PatternText.braced, if_neg Bool.false_ne_true]
    exact scan_parens inner.even.inside

theorem PatternText.scan_alternatives : ∀ patterns : List PatternText,
    scan (PatternText.alternatives patterns) 0 =
      if PatternText.anyBraced patterns then .found .none else .through 0
  | [] => by
    rw [PatternText.alternatives, PatternText.anyBraced, if_neg Bool.false_ne_true, scan]
  | pattern :: patterns => by
    have hpipe : Passes [symbol .pipe] := .single rfl
    rw [PatternText.alternatives, PatternText.anyBraced, ← List.singleton_append, scan_append, hpipe 0]
    dsimp only
    rw [scan_append, pattern.scan_eq]
    cases pattern.braced with
    | true => rfl
    | false => exact PatternText.scan_alternatives patterns

end

/-- The walk goes through a pattern unless it meets the brace of a struct pattern. -/
theorem PatternText.passed_eq (pattern : PatternText) : passed pattern.lexemes = !pattern.braced := by
  rw [passed, pattern.scan_eq]
  cases pattern.braced <;> rfl

/-- `path (field | index)*` -/
def ExprText.isPlace : ExprText → Bool
  | .path _ => true
  | .field receiver _ => receiver.isPlace
  | .index receiver _ => receiver.isPlace
  | _ => false

theorem ExprText.scan_place {place : ExprText} (h : place.isPlace = true) :
    scan place.lexemes 0 = .through 0 := by
  fun_induction ExprText.isPlace place with
  | case1 path => exact path.passes 0
  | case2 receiver name ih =>
    have hmember : Passes [symbol .dot, memberText name] := by
      refine .cons rfl (.single ?_)
      change passKind (if indexName name = true then .integer else .ident) = true
      split <;> rfl
    rw [ExprText.lexemes, scan_append, ih h]
    exact hmember 0
  | case3 receiver index ih =>
    rw [ExprText.lexemes, scan_append, ih h]
    exact scan_brackets index.even.inside
  | case4 => exact absurd h Bool.noConfusion

/-! ## What a statement comes out as -/

def stmtLead : Stmt → StmtLead
  | .decl _ _ _ _ => .decl
  | .reassign _ _ _ _ _ => .reassign
  | .expr _ _ => .none

theorem stmtLead_plain (stmt : Stmt) : stmtLead stmt.plain = stmtLead stmt := by
  cases stmt <;> rfl

variable {α β : Type} {P : β → Prop}

/-- Every value of the parse function is as claimed. -/
def Yields (P : α → Prop) (p : PM α) : Prop := ∀ s a s', p s = .ok (some a, s') → P a

theorem Yields.pure {a : β} (h : P a) : Yields P (pure a) := by
  intro s b s' hrun
  cases hrun
  exact h

theorem Yields.fail : Yields P PM.fail := by
  intro s b s' hrun
  cases hrun

theorem Yields.bind {p : PM α} {f : α → PM β} (h : ∀ a, Yields P (f a)) : Yields P (p >>= f) := by
  intro s b s' hrun
  obtain ⟨a, s1, -, hf⟩ := bind_some hrun
  exact h a s1 b s' hf

theorem Yields.ite {c : Prop} [Decidable c] {p p' : PM β} (h : Yields P p) (h' : Yields P p') :
    Yields P (if c then p else p') := by
  split
  · exact h
  · exact h'

variable {inp : Input} {m : Mode} {ls : List Lexeme} {s : PState} {back : ExprRec} {k : TokenKind}

/-- `parse_stmt` after `scan_lead`. -/
def Input.stmtBranch (inp : Input) (back : ExprRec) (mark : Nat) (lead : StmtLead) : PM Stmt := do
  match lead with
  | .decl =>
    let pattern ← inp.parsePattern
    let type ← if ← inp.accept .colon then some <$> inp.parseClosedType else pure none
    inp.expect .colonEq "\x60:=\x60"
    let init ← back.expr
    return .decl (← inp.spanFrom mark) pattern type init
  | .reassign =>
    let place ← back.expr
    let t ← inp.peek
    if t.kind = .eq then
      inp.advance
      let value ← back.expr
      return .reassign (← inp.spanFrom mark) place false .add value
    else if isCompoundAssign t.kind then
      inp.advance
      let value ← back.expr
      return .reassign (← inp.spanFrom mark) place true (compoundOp t.kind) value
    else
      inp.expect .eq "\x60=\x60"
      fail
  | .none =>
    let value ← back.expr
    return .expr (← inp.spanFrom mark) value

theorem Input.parseStmt_eq : inp.parseStmt back = PM.here >>= fun mark =>
    inp.scanLead >>= fun lead => inp.stmtBranch back mark lead := rfl

/-- The branch decides what comes out of it. -/
theorem stmtBranch_lead (mark : Nat) (lead : StmtLead) :
    Yields (fun stmt => stmtLead stmt = lead) (inp.stmtBranch back mark lead) := by
  cases lead with
  | none => exact .bind fun _ => .bind fun _ => .pure rfl
  | decl =>
    have hrest : ∀ (pattern : Pattern) (type : Option Ty),
        Yields (fun stmt => stmtLead stmt = .decl) (do
          inp.expect .colonEq "\x60:=\x60"
          let init ← back.expr
          return .decl (← inp.spanFrom mark) pattern type init) := fun _ _ =>
      .bind fun _ => .bind fun _ => .bind fun _ => .pure rfl
    exact .bind fun pattern => .bind fun _ =>
      .ite (.bind fun type => hrest pattern type) (.bind fun type => hrest pattern type)
  | reassign =>
    have hvalue : ∀ f : Span → Expr → Stmt, (∀ span value, stmtLead (f span value) = .reassign) →
        Yields (fun stmt => stmtLead stmt = .reassign) (do
          inp.advance
          let value ← back.expr
          return f (← inp.spanFrom mark) value) := fun f hf =>
      .bind fun _ => .bind fun value => .bind fun span => .pure (hf span value)
    exact .bind fun _ => .bind fun _ => .ite (hvalue _ fun _ _ => rfl)
      (.ite (hvalue _ fun _ _ => rfl) (.bind fun _ => .fail))

/-- What comes out of `parse_stmt` is of the kind that `scan_lead` answers. -/
theorem parseStmt_lead (hs : At inp m ls s) {Q : Stmt → PState → Prop}
    (h : Gives (inp.parseStmt back) s Q) :
    ∃ stmt s', Q stmt s' ∧ stmtLead stmt = (scan ls 0).lead := by
  obtain ⟨stmt, s', hrun, hQ⟩ := h
  rw [Input.parseStmt_eq, bind_run, PM.here] at hrun
  simp only at hrun
  rw [bind_run, hs.scanLead] at hrun
  exact ⟨stmt, s', hQ, stmtBranch_lead _ _ _ _ _ hrun⟩

/-! ## The statements that are read -/

/-- Each part of the statement is legible by itself. -/
def StmtText.partsLegible (allow : Bool) (k : TokenKind) : StmtText → Bool
  | .decl pattern type init =>
    pattern.legible && type.all (fun type => type.legible && type.stops .colonEq) &&
      init.legible allow && init.ends allow k
  | .reassign place op value =>
    place.isPlace && place.legible allow && place.ends allow op.token && value.legible allow &&
      value.ends allow k
  | .expr value => value.legible allow && value.ends allow k

/-- No brace stands between a declared pattern and its `:=`, and a statement that is an expression has
no `:=` outside brackets before its first brace. -/
def StmtText.inSight : StmtText → Bool
  | .decl pattern _ _ => !pattern.braced
  | .reassign _ _ _ => true
  | .expr value => scan value.lexemes 0 != .found .decl

theorem StmtText.legible_eq (stmt : StmtText) (allow : Bool) (k : TokenKind)
    (h : stmt.partsLegible allow k = true) : stmt.legible allow k = stmt.inSight := by
  cases stmt with
  | decl pattern type init =>
    simp only [StmtText.partsLegible, Bool.and_eq_true] at h
    rw [StmtText.legible, pattern.passed_eq, h.1.1.1, h.1.1.2, h.1.2, h.2]
    simp [StmtText.inSight]
  | reassign place op value =>
    simp only [StmtText.partsLegible, Bool.and_eq_true] at h
    have hpassed : passed place.lexemes = true := by
      rw [passed, ExprText.scan_place h.1.1.1.1, beq_self_eq_true]
    rw [StmtText.legible, h.1.1.1.2, h.1.1.2, hpassed, h.1.2, h.2]
    rfl
  | expr value =>
    simp only [StmtText.partsLegible, Bool.and_eq_true] at h
    rw [StmtText.legible, h.1, h.2]
    rfl

/-- What is not in sight comes out as another kind of statement, if as any. -/
theorem StmtText.inSight_of_lead {stmt : StmtText}
    (h : stmtLead stmt.tree = (scan (stmt.lexemes ++ ls) 0).lead) : stmt.inSight = true := by
  cases stmt with
  | reassign => rfl
  | decl pattern type init =>
    rw [decl_lexemes, List.append_assoc, scan_append, pattern.scan_eq] at h
    cases hbraced : pattern.braced with
    | false =>
      rw [StmtText.inSight, hbraced]
      rfl
    | true =>
      rw [hbraced] at h
      exact StmtLead.noConfusion h
  | expr value =>
    rw [StmtText.lexemes, scan_append] at h
    refine bne_iff_ne.2 fun hdecl => ?_
    rw [hdecl] at h
    exact StmtLead.noConfusion h

/-- `x := y;`. -/
def bindingInput : Input where
  tokens := [⟨.ident, ⟨0, 0, 1⟩⟩, ⟨.colonEq, ⟨0, 2, 2⟩⟩, ⟨.ident, ⟨0, 5, 1⟩⟩, ⟨.semicolon, ⟨0, 6, 1⟩⟩,
    ⟨.eof, ⟨0, 7, 0⟩⟩]
  bytes := [120, 32, 58, 61, 32, 121, 59]
  file := 0

/-- `P { x } := y;`. -/
def openedInput : Input where
  tokens := [⟨.ident, ⟨0, 0, 1⟩⟩, ⟨.lBrace, ⟨0, 2, 1⟩⟩, ⟨.ident, ⟨0, 4, 1⟩⟩, ⟨.rBrace, ⟨0, 6, 1⟩⟩,
    ⟨.colonEq, ⟨0, 8, 2⟩⟩, ⟨.ident, ⟨0, 11, 1⟩⟩, ⟨.semicolon, ⟨0, 12, 1⟩⟩, ⟨.eof, ⟨0, 13, 0⟩⟩]
  bytes := [80, 32, 123, 32, 120, 32, 125, 32, 58, 61, 32, 121, 59]
  file := 0

def opened : StmtText := .decl (.struct ⟨"P", []⟩ [.short "x"] false) none (.path ⟨"y", []⟩)

end Alcy.Parser
