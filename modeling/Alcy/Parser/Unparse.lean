import Alcy.Parser.ReadBack

/-! # Printing operators

Trees of literals, paths, tuples, operators, casts to primitive types and postfix forms are printed
with parentheses where an operand is looser than its place in the table of precedence, and read back.
A call of a named field keeps its parentheses too: without them it is a method call. -/
namespace Alcy.Parser
open Alcy.Ast Alcy.Diag
open Alcy.Lexer (Token TokenKind)

mutual

/-- The trees that are printed here. -/
def formula : Expr → Bool
  | .literal _ _ => true
  | .path _ name => !name.segments.isEmpty
  | .tuple _ elements => decide (2 ≤ elements.length) && formulas elements
  | .unary _ _ inner | .borrow _ _ inner | .question _ inner => formula inner
  | .binary _ _ lhs rhs => formula lhs && formula rhs
  | .cast _ inner (.primitive _ kind) => formula inner && kind != .str
  | .call _ callee args => formula callee && formulas args
  | .methodCall _ receiver _ args => formula receiver && formulas args
  | .field _ receiver _ => formula receiver
  | .index _ receiver place => formula receiver && formula place
  | _ => false

def formulas : List Expr → Bool
  | [] => true
  | e :: es => formula e && formulas es

end

/-- The line of the table of precedence a tree belongs to, counted as in `ExprText.level`. A `?` has
a line of its own, between the unary operators and the other postfix forms. -/
def precedence : Expr → Nat
  | .binary _ op _ _ => opLevel op
  | .cast _ _ _ => 11
  | .unary _ _ _ | .borrow _ _ _ => 12
  | .question _ _ => 13
  | .call _ _ _ | .methodCall _ _ _ _ | .field _ _ _ | .index _ _ _ => 14
  | _ => 15

/-- Parentheses around what is looser than its place. -/
def atPlace (place : Nat) (e : Expr) (text : ExprText) : ExprText :=
  if place ≤ precedence e then text else .paren text

def isMember : Expr → Bool
  | .field _ _ name => !indexName name.name
  | _ => false

def atCallee (e : Expr) (text : ExprText) : ExprText :=
  if isMember e then .paren text else atPlace 14 e text

def pathText (path : Path) : PathText :=
  match path.segments with
  | [] => ⟨"", []⟩
  | name :: names => ⟨name.name, names.map Ident.name⟩

mutual

def unparse : Expr → ExprText
  | .literal _ value => .literal value.kind value.spelling
  | .path _ name => .path (pathText name)
  | .tuple _ elements => .tuple (unparseAll elements) false
  | .unary _ op inner => .unary op (atPlace 12 inner (unparse inner))
  | .borrow _ isMut inner => .borrow isMut (atPlace 12 inner (unparse inner))
  | .binary _ op lhs rhs =>
    .binary op (atPlace (leftLevel op) lhs (unparse lhs)) (atPlace (rightLevel op) rhs (unparse rhs))
  | .cast _ inner (.primitive _ kind) => .cast (atPlace 12 inner (unparse inner)) (.primitive kind)
  | .call _ callee args => .call (atCallee callee (unparse callee)) (unparseAll args) false
  | .methodCall _ receiver name args =>
    .methodCall (atPlace 14 receiver (unparse receiver)) name.name (unparseAll args) false
  | .field _ receiver name => .field (atPlace 14 receiver (unparse receiver)) name.name
  | .index _ receiver place => .index (atPlace 14 receiver (unparse receiver)) (unparse place)
  | .question _ inner => .question (atPlace 14 inner (unparse inner))
  | _ => .breakExpr

def unparseAll : List Expr → List ExprText
  | [] => []
  | e :: es => unparse e :: unparseAll es

end

theorem unparseAll_length (es : List Expr) : (unparseAll es).length = es.length := by
  induction es with
  | nil => rfl
  | cons e es ih => rw [unparseAll, List.length_cons, List.length_cons, ih]

theorem pathText_tree {path : Path} (h : path.segments.isEmpty = false) :
    (pathText path).tree = path.plain := by
  obtain ⟨segments, span⟩ := path
  cases segments with
  | nil => exact absurd h Bool.noConfusion
  | cons name names =>
    simp only [pathText, PathText.tree, Path.plain, List.map_cons, List.map_map]
    rfl

/-- A kind that the last part of a printed tree does not run into. -/
def parts (k : TokenKind) : Bool := k != .colonColon && k != .lParen && k != .lBrace

theorem opLevel_le (op : BinaryOp) : opLevel op ≤ 10 := by
  cases op <;> decide

theorem leftLevel_le (op : BinaryOp) : leftLevel op ≤ 15 := by
  cases op <;> decide

theorem rightLevel_le (op : BinaryOp) : rightLevel op ≤ 15 := by
  cases op <;> decide

theorem binaryToken_parts (op : BinaryOp) : parts (binaryToken op) = true := by
  cases op <;> rfl

/-- The text is read back to the tree, before every kind that parts. -/
structure Prints (allow : Bool) (text : ExprText) (e : Expr) : Prop where
  legible : text.legible allow = true
  ends : ∀ k, parts k = true → text.ends allow k = true
  tree : text.tree = e.plain
  level : precedence e ≤ text.level

section
variable {allow : Bool} {text : ExprText} {e : Expr}

theorem Prints.paren (h : Prints allow text e) :
    (ExprText.paren text).legible allow = true ∧ (ExprText.paren text).tree = e.plain :=
  ⟨Bool.and_eq_true_iff.2 ⟨h.legible, h.ends .rParen rfl⟩, h.tree⟩

/-- At its place, a tree is tight enough. -/
theorem Prints.placed (h : Prints allow text e) (place : Nat) (hplace : place ≤ 15) :
    (place ≤ (atPlace place e text).level ∧ (atPlace place e text).legible allow = true) ∧
      (∀ k, parts k = true → (atPlace place e text).ends allow k = true) ∧
      (atPlace place e text).tree = e.plain := by
  rw [atPlace]
  split
  · next hle => exact ⟨⟨Nat.le_trans hle h.level, h.legible⟩, h.ends, h.tree⟩
  · exact ⟨⟨hplace, h.paren.1⟩, fun _ _ => rfl, h.paren.2⟩

/-- What is called is a path, or it ends before the parenthesis. -/
theorem Prints.called (h : Prints allow text e)
    (hpath : text.isPath = false → 14 ≤ precedence e → isMember e = false →
      text.ends allow .lParen = true) :
    ((atCallee e text).isPath || decide (14 ≤ (atCallee e text).level) &&
      (atCallee e text).legible allow && (atCallee e text).ends allow .lParen) = true ∧
      (atCallee e text).tree = e.plain := by
  rw [atCallee]
  split
  · exact ⟨by rw [h.paren.1]; rfl, h.paren.2⟩
  · next hmember =>
    rw [atPlace]
    split
    · next hle =>
      refine ⟨?_, h.tree⟩
      cases hp : text.isPath with
      | true => rfl
      | false =>
        rw [h.legible, hpath hp hle (Bool.eq_false_iff.2 hmember),
          decide_eq_true (Nat.le_trans hle h.level)]
        rfl
    · exact ⟨by rw [h.paren.1]; rfl, h.paren.2⟩

end

/-- Only a path and a named field run into a parenthesis, at the level of what is called. -/
theorem unparse_ends_lParen {allow : Bool} {e : Expr} (h : formula e = true)
    (hpath : (unparse e).isPath = false) (hlevel : 14 ≤ precedence e) (hmember : isMember e = false) :
    (unparse e).ends allow .lParen = true := by
  cases e with
  | path => exact absurd hpath.symm Bool.noConfusion
  | field span receiver name =>
    rw [isMember, Bool.not_eq_false'] at hmember
    rw [unparse, ExprText.ends, hmember]
    rfl
  | literal | tuple | call | methodCall | index | question => rfl
  | binary span op lhs rhs => exact absurd (Nat.le_trans hlevel (opLevel_le op)) (by decide)
  | unary | borrow | cast =>
    rw [precedence] at hlevel
    exact absurd hlevel (by decide)
  | _ => exact absurd h Bool.noConfusion

mutual

theorem unparse_prints (allow : Bool) :
    (e : Expr) → formula e = true → Prints allow (unparse e) e
  | .literal _ _, _ => ⟨rfl, fun _ _ => rfl, rfl, Nat.le_refl 15⟩
  | .path _ name, h => by
    rw [formula, Bool.not_eq_true'] at h
    refine ⟨rfl, fun k hk => ?_, congrArg (Expr.path default) (pathText_tree h), Nat.le_refl 15⟩
    simp only [parts, Bool.and_eq_true, bne_iff_ne] at hk
    simp [unparse, ExprText.ends, hk]
  | .tuple _ elements, h => by
    rw [formula, Bool.and_eq_true, decide_eq_true_eq] at h
    obtain ⟨hlegible, htrees⟩ := unparseAll_prints allow .rParen rfl elements h.2
    have hlen := unparseAll_length elements
    refine ⟨?_, fun _ _ => rfl, congrArg (Expr.tuple default) htrees, Nat.le_refl 15⟩
    have hne : (unparseAll elements).isEmpty = false := by
      rw [List.isEmpty_eq_false_iff, ← List.length_pos_iff, hlen]
      omega
    have hone : ((unparseAll elements).length == 1) = false := by
      rw [hlen, beq_eq_false_iff_ne]
      omega
    rw [unparse, ExprText.legible, hne, hone]
    exact hlegible
  | .unary _ op inner, h => by
    obtain ⟨htight, hends, htree⟩ := (unparse_prints allow inner h).placed 12 (by decide)
    refine ⟨?_, hends, congrArg (Expr.unary default op) htree, Nat.le_refl 12⟩
    rw [unparse, ExprText.legible, decide_eq_true htight.1, htight.2]
    rfl
  | .borrow _ isMut inner, h => by
    obtain ⟨htight, hends, htree⟩ := (unparse_prints allow inner h).placed 12 (by decide)
    refine ⟨?_, hends, congrArg (Expr.borrow default isMut) htree, Nat.le_refl 12⟩
    rw [unparse, ExprText.legible, decide_eq_true htight.1, htight.2]
    rfl
  | .binary _ op lhs rhs, h => by
    rw [formula, Bool.and_eq_true] at h
    obtain ⟨hleft, hleftEnds, hleftTree⟩ := (unparse_prints allow lhs h.1).placed _ (leftLevel_le op)
    obtain ⟨hright, hrightEnds, hrightTree⟩ := (unparse_prints allow rhs h.2).placed _ (rightLevel_le op)
    refine ⟨?_, hrightEnds, congrArg₂ (Expr.binary default op) hleftTree hrightTree,
      Nat.le_refl (opLevel op)⟩
    rw [unparse, ExprText.legible, decide_eq_true hleft.1, hleft.2,
      hleftEnds _ (binaryToken_parts op), decide_eq_true hright.1, hright.2]
    rfl
  | .cast _ inner (.primitive _ kind), h => by
    rw [formula, Bool.and_eq_true, bne_iff_ne] at h
    obtain ⟨htight, hends, htree⟩ := (unparse_prints allow inner h.1).placed 12 (by decide)
    refine ⟨?_, fun k _ => rfl, ?_, Nat.le_refl 11⟩
    · rw [unparse, ExprText.legible, decide_eq_true htight.1, htight.2, hends .as rfl]
      rfl
    · rw [unparse, ExprText.tree, htree, TypeText.tree, primitiveTree, Expr.plain, Ty.plain]
      exact h.2
  | .call _ callee args, h => by
    rw [formula, Bool.and_eq_true] at h
    obtain ⟨hlegible, htrees⟩ := unparseAll_prints allow .rParen rfl args h.2
    obtain ⟨hcallee, htree⟩ := (unparse_prints allow callee h.1).called (unparse_ends_lParen h.1)
    refine ⟨?_, fun _ _ => rfl, congrArg₂ (Expr.call default) htree htrees, ?_⟩
    · rw [unparse, ExprText.legible, hcallee, hlegible]
      rfl
    · rw [unparse, ExprText.level, precedence]
      split <;> decide
  | .methodCall _ receiver name args, h => by
    rw [formula, Bool.and_eq_true] at h
    obtain ⟨hlegible, htrees⟩ := unparseAll_prints allow .rParen rfl args h.2
    obtain ⟨htight, hends, htree⟩ := (unparse_prints allow receiver h.1).placed 14 (by decide)
    refine ⟨?_, fun _ _ => rfl, ?_, Nat.le_refl 14⟩
    · rw [unparse, ExprText.legible, decide_eq_true htight.1, htight.2, hends .dot rfl, hlegible]
      rfl
    · rw [unparse, ExprText.tree, htree, htrees]
      rfl
  | .field _ receiver name, h => by
    obtain ⟨htight, hends, htree⟩ := (unparse_prints allow receiver h).placed 14 (by decide)
    refine ⟨?_, fun k hk => ?_, ?_, Nat.le_refl 14⟩
    · rw [unparse, ExprText.legible, decide_eq_true htight.1, htight.2, hends .dot rfl]
      rfl
    · simp only [parts, Bool.and_eq_true, bne_iff_ne] at hk
      simp [unparse, ExprText.ends, hk]
    · rw [unparse, ExprText.tree, htree]
      rfl
  | .index _ receiver place, h => by
    rw [formula, Bool.and_eq_true] at h
    obtain ⟨htight, hends, htree⟩ := (unparse_prints allow receiver h.1).placed 14 (by decide)
    have hplace := unparse_prints allow place h.2
    refine ⟨?_, fun _ _ => rfl, congrArg₂ (Expr.index default) htree hplace.tree, Nat.le_refl 14⟩
    rw [unparse, ExprText.legible, decide_eq_true htight.1, htight.2, hends .lBracket rfl,
      hplace.legible, hplace.ends .rBracket rfl]
    rfl
  | .question _ inner, h => by
    obtain ⟨htight, hends, htree⟩ := (unparse_prints allow inner h).placed 14 (by decide)
    refine ⟨?_, fun _ _ => rfl, congrArg (Expr.question default) htree,
      (by decide : 13 ≤ 14)⟩
    rw [unparse, ExprText.legible, decide_eq_true htight.1, htight.2, hends .question rfl]
    rfl

theorem unparseAll_prints (allow : Bool) (close : TokenKind) (hclose : parts close = true) :
    (es : List Expr) → formulas es = true →
      ExprText.listLegible allow close false (unparseAll es) = true ∧
        ExprText.trees (unparseAll es) = Expr.plainAll es
  | [], _ => ⟨rfl, rfl⟩
  | e :: es, h => by
    rw [formulas, Bool.and_eq_true] at h
    have hfirst := unparse_prints allow e h.1
    obtain ⟨hlegible, htrees⟩ := unparseAll_prints allow close hclose es h.2
    refine ⟨?_, congrArg₂ List.cons hfirst.tree htrees⟩
    rw [unparseAll, ExprText.listLegible, hfirst.legible, hlegible, hfirst.ends]
    · rfl
    · split
      · exact hclose
      · rfl

end

/-- `parse_expr` reads the printed tree back, up to spans, with nothing left and nothing reported. -/
theorem parseExpr_unparse {inp : Input} {m : Mode} {s : PState} (hm : m.bank = 0) {e : Expr}
    (h : formula e = true) (hs : At inp m ((unparse e).lexemes ++ [symbol .eof]) s) :
    Gives inp.parseExpr s fun result s' => result.plain = e.plain ∧ At inp m [symbol .eof] s' := by
  have hprints := unparse_prints m.allow e h
  have hends : (unparse e).ends m.allow (nextKind [symbol .eof]) = true := hprints.ends .eof rfl
  refine (parseExpr_takes hm hprints.legible hends rfl hs).mono fun result s' h' => ?_
  exact ⟨h'.1.trans hprints.tree, h'.2⟩

/-- `(a + 1) * b as i32`. -/
def scaled : Expr :=
  .binary default .mul
    (.binary default .add (.path default ⟨[plainIdent "a"], default⟩)
      (.literal default ⟨.integer, default, "1"⟩))
    (.cast default (.path default ⟨[plainIdent "b"], default⟩) (.primitive default .i32))

/-- Its tokens, with the names and the number in the bytes one after the other. -/
def scaledInput : Input where
  tokens := [⟨.lParen, ⟨0, 0, 0⟩⟩, ⟨.ident, ⟨0, 0, 1⟩⟩, ⟨.plus, ⟨0, 1, 0⟩⟩, ⟨.integer, ⟨0, 1, 1⟩⟩,
    ⟨.rParen, ⟨0, 2, 0⟩⟩, ⟨.star, ⟨0, 2, 0⟩⟩, ⟨.ident, ⟨0, 2, 1⟩⟩, ⟨.as, ⟨0, 3, 0⟩⟩,
    ⟨.i32, ⟨0, 3, 0⟩⟩, ⟨.eof, ⟨0, 3, 0⟩⟩]
  bytes := [97, 49, 98]
  file := 0

theorem scaled_parsed :
    Gives scaledInput.parseExpr ⟨0, default, 0, true, []⟩ fun result s' =>
      result.plain = scaled.plain ∧ At scaledInput ⟨0, true, []⟩ [symbol .eof] s' :=
  parseExpr_unparse (m := ⟨0, true, []⟩) rfl (by decide)
    ⟨by decide, .of _ (by decide) "", rfl, rfl, rfl⟩

end Alcy.Parser
