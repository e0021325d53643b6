import Alcy.Parser.Operators

/-! # Reading primary expressions, blocks and statements

What is read with its brackets or its keyword: each production takes its text when the ways back into
expressions do so further down. -/
namespace Alcy.Parser
open Alcy.Ast Alcy.Diag
open Alcy.Lexer (Token TokenKind)
open PM

/-! ## Lists of texts -/

theorem ExprText.listLexemes_eq (trailing : Bool) (exprs : List ExprText) :
    ExprText.listLexemes trailing exprs = commas trailing (exprs.map ExprText.lexemes) := by
  induction exprs with
  | nil => rfl
  | cons expr exprs ih => rw [ExprText.listLexemes, ih, List.map_cons, commas, List.isEmpty_map]

theorem ExprText.trees_eq (exprs : List ExprText) :
    ExprText.trees exprs = exprs.map ExprText.tree := by
  induction exprs with
  | nil => rfl
  | cons expr exprs ih => rw [ExprText.trees, ih, List.map_cons]

variable {inp : Input} {m : Mode} {ls : List Lexeme} {s : PState} {M : Nat} {back : ExprRec}
  {k : TokenKind} {mark : Nat}

/-- An expression in brackets, in a list or in a statement: nothing that can follow it there is an
operator. -/
theorem ExprsRead.takes (h : ExprsRead inp M back) (hm : m.bank = 0) {e : ExprText}
    (hlegible : e.legible m.allow = true) (hends : e.ends m.allow k = true)
    (hfree : freeAt 0 k = true) : Takes inp m M back.expr e.lexemes k fun result =>
      result.plain = e.tree :=
  h.expr m e k hm (Nat.zero_le _) hlegible hends hfree

theorem ExprsRead.each (h : ExprsRead inp M back) (hm : m.bank = 0) (close : TokenKind)
    (hclose : freeAt 0 close = true) (trailing : Bool) :
    ∀ {exprs : List ExprText}, ExprText.listLegible m.allow close trailing exprs = true →
      Followed close trailing
        (TakesEach inp m M back.expr ExprText.lexemes Expr.plain ExprText.tree) exprs
  | [], _ => trivial
  | expr :: exprs, hlegible => by
    rw [ExprText.listLegible, Bool.and_eq_true, Bool.and_eq_true] at hlegible
    refine ⟨h.takes hm hlegible.1.1 hlegible.1.2 ?_, h.each hm close hclose trailing hlegible.2⟩
    split
    · exact hclose
    · rfl

theorem ExprText.listBegins {allow : Bool} {close : TokenKind} {trailing : Bool}
    (hclose : startsAt 0 close = false) : ∀ {exprs : List ExprText},
      ExprText.listLegible allow close trailing exprs = true →
        ∀ e ∈ exprs, Begins close e.lexemes
  | [], _, _, he => absurd he List.not_mem_nil
  | expr :: exprs, hlegible, e, he => by
    rw [ExprText.listLegible, Bool.and_eq_true, Bool.and_eq_true] at hlegible
    rcases List.mem_cons.1 he with rfl | he
    · obtain ⟨l, tl, hl, hstart⟩ := e.begin allow hlegible.1.1
      exact ⟨l, tl, hl, startsAt_ne hstart hclose, startsAt_ne hstart rfl⟩
    · exact ExprText.listBegins hclose hlegible.2 e he

/-! ## Parentheses and arguments -/

theorem parseArgs_gives (h : ExprsRead inp M back) (hm : m.bank = 0) {args : List ExprText}
    {trailing : Bool} (hlegible : ExprText.listLegible m.allow .rParen trailing args = true)
    (hs : At inp m (ExprText.listLexemes trailing args ++ symbol .rParen :: ls) s)
    (hM : (ExprText.listLexemes trailing args ++ symbol .rParen :: ls).length < M) :
    Gives (inp.parseArgs back) s fun results s' =>
      Expr.plainAll results = ExprText.trees args ∧ At inp m ls s' := by
  rw [ExprText.listLexemes_eq] at hs hM
  have hlist := Takes.commaList TokenKind.noConfusion TokenKind.noConfusion
    (ExprText.listBegins rfl hlegible) (h.each hm .rParen rfl trailing hlegible) _ s hs hM rfl
  refine .bind hlist fun results s1 h1 => .expect h1.2 TokenKind.noConfusion fun s2 hs2 => ?_
  refine .pure ⟨?_, hs2⟩
  rw [Expr.plainAll_eq, h1.1, ExprText.trees_eq]

theorem parseParenExpr_paren (h : ExprsRead inp M back) (hm : m.bank = 0) {inner : ExprText}
    (hlegible : inner.legible m.allow = true) (hends : inner.ends m.allow .rParen = true)
    (hs : At inp m (inner.lexemes ++ symbol .rParen :: ls) s)
    (hM : (inner.lexemes ++ symbol .rParen :: ls).length < M) :
    Gives (inp.parseParenExpr mark back) s fun result s' =>
      result.plain = inner.tree ∧ At inp m ls s' := by
  refine .bind (h.takes hm hlegible hends rfl _ s hs hM rfl) fun result s1 h1 => ?_
  refine .decline h1.2 TokenKind.noConfusion TokenKind.noConfusion (.no Bool.false_ne_true ?_)
  exact .expect h1.2 TokenKind.noConfusion fun s2 hs2 => .pure ⟨h1.1, hs2⟩

/-- Parenthesised expressions with a comma: there must be a first one. -/
theorem parseParenExpr_tuple (h : ExprsRead inp M back) (hm : m.bank = 0)
    (hmark : mark < inp.count) {elements : List ExprText} {trailing : Bool}
    (hlegible : (ExprText.tuple elements trailing).legible m.allow = true)
    (hs : At inp m (ExprText.listLexemes (trailing || elements.length == 1) elements ++
      symbol .rParen :: ls) s)
    (hM : (ExprText.listLexemes (trailing || elements.length == 1) elements ++
      symbol .rParen :: ls).length < M) :
    Gives (inp.parseParenExpr mark back) s fun result s' =>
      result.plain = (ExprText.tuple elements trailing).tree ∧ At inp m ls s' := by
  rw [ExprText.legible, Bool.and_eq_true] at hlegible
  cases elements with
  | nil => exact absurd hlegible.1 Bool.false_ne_true
  | cons first elements =>
    have hlist := hlegible.2
    have hcomma : (elements.isEmpty && !(trailing || (first :: elements).length == 1)) = false := by
      cases elements with
      | nil => rw [List.length_singleton, beq_self_eq_true, Bool.or_true]; rfl
      | cons => rfl
    generalize (trailing || (first :: elements).length == 1) = tr at hs hM hcomma hlist
    rw [ExprText.listLegible, hcomma, if_neg Bool.false_ne_true, Bool.and_eq_true,
      Bool.and_eq_true] at hlist
    rw [ExprText.listLexemes, hcomma, if_neg Bool.false_ne_true, ExprText.listLexemes_eq,
      List.append_assoc, List.append_assoc] at hs hM
    refine .bind (h.takes hm hlist.1.1 hlist.1.2 rfl _ s hs hM rfl) fun result s1 h1 => ?_
    refine .accept h1.2 TokenKind.noConfusion fun s2 (hs2 : At inp m (commas tr
      (elements.map ExprText.lexemes) ++ symbol .rParen :: ls) s2) => .yes rfl ?_
    have hlt : (commas tr (elements.map ExprText.lexemes) ++ symbol .rParen :: ls).length < M := by
      simp only [List.length_append] at hM ⊢
      omega
    have hrest := Takes.commaRest TokenKind.noConfusion TokenKind.noConfusion
      (ExprText.listBegins rfl hlist.2) (h.each hm .rParen rfl tr hlist.2) [result] _ s2 hs2 hlt rfl
    refine .bind hrest fun results s3 h3 => ?_
    refine .expect h3.2 TokenKind.noConfusion fun s4 hs4 => .spanned hmark fun span => ⟨?_, hs4⟩
    rw [Expr.plain, Expr.plainAll_eq, h3.1, ExprText.tree, ExprText.trees_eq, List.map_singleton,
      h1.1]
    rfl

/-! ## Statements -/

/-- The kinds that a statement can stand before. -/
def endsStmt (k : TokenKind) : Bool := k == .semicolon || k == .rBrace || k == .eof

theorem endsStmt_free (h : endsStmt k = true) : freeAt 0 k = true := by
  cases k <;> first | rfl | exact Bool.noConfusion h

theorem scan_stop (h : endsStmt (nextKind ls) = true) : (scan ls 0).lead = .none := by
  cases ls with
  | nil => rfl
  | cons l ls =>
    obtain ⟨kind, text⟩ := l
    cases kind <;> first | rfl | exact Bool.noConfusion h

theorem AssignOp.scan (op : AssignOp) (ls : List Lexeme) :
    Parser.scan (symbol op.token :: ls) 0 = .found .reassign := by
  cases op <;> rfl

theorem scan_passed {text ls : List Lexeme} (h : passed text = true) :
    scan (text ++ ls) 0 = scan ls 0 := by
  rw [passed, beq_iff_eq] at h
  rw [scan_append, h]

/-- Before something that stops it, the walk over an expression finds no assignment. -/
theorem ExprText.scan_stop (e : ExprText) (hdecl : scan e.lexemes 0 ≠ .found .decl)
    (hls : (scan ls 0).lead = .none) : (scan (e.lexemes ++ ls) 0).lead = .none := by
  rw [scan_append]
  rcases e.even.outside with h | h | h
  · rw [h]
    exact hls
  · exact absurd h hdecl
  · rw [h]
    rfl

theorem parseStmt_expr (h : ExprsRead inp M back) (hm : m.bank = 0) {value : ExprText}
    (hlegible : (StmtText.expr value).legible m.allow k = true) (hk : endsStmt k = true) :
    Takes inp m M (inp.parseStmt back) (StmtText.expr value).lexemes k fun result =>
      result.plain = (StmtText.expr value).tree := by
  intro ls s hs hM hnext
  simp only [StmtText.legible, Bool.and_eq_true, bne_iff_ne] at hlegible
  have hlead := hs.scanLead
  rw [StmtText.lexemes, value.scan_stop hlegible.2 (scan_stop (hnext ▸ hk))] at hlead
  refine .here (.step hlead ?_)
  refine .bind (h.takes hm hlegible.1.1 hlegible.1.2 (endsStmt_free hk) ls s hs hM hnext)
    fun result s1 h1 => ?_
  exact .spanned hs.lt fun span => ⟨congrArg (Stmt.expr default) h1.1, h1.2⟩

theorem AssignOp.free (op : AssignOp) : freeAt 0 op.token = true := by cases op <;> rfl

theorem AssignOp.token_ne (op : AssignOp) : (symbol op.token).kind ≠ .eof := by
  cases op <;> exact TokenKind.noConfusion

theorem parseStmt_reassign (h : ExprsRead inp M back) (hm : m.bank = 0) {place value : ExprText}
    {op : AssignOp} (hlegible : (StmtText.reassign place op value).legible m.allow k = true)
    (hk : endsStmt k = true) :
    Takes inp m M (inp.parseStmt back) (StmtText.reassign place op value).lexemes k fun result =>
      result.plain = (StmtText.reassign place op value).tree := by
  intro ls s hs hM hnext
  simp only [StmtText.legible, Bool.and_eq_true] at hlegible
  rw [StmtText.lexemes, List.append_assoc, List.cons_append] at hs hM
  have hlead := hs.scanLead
  rw [scan_passed hlegible.1.1.2, op.scan] at hlead
  refine .here (.step hlead ?_)
  refine .bind (h.takes hm hlegible.1.1.1.1 hlegible.1.1.1.2 op.free _ s hs hM rfl) fun place' s1 h1 => ?_
  have hlt : (value.lexemes ++ ls).length < M := by
    simp only [List.length_append, List.length_cons] at hM ⊢
    omega
  have hvalue : ∀ s', At inp m (value.lexemes ++ ls) s' → Gives back.expr s' fun result s2 =>
      result.plain = value.tree ∧ At inp m ls s2 := fun s' hs' =>
    h.takes hm hlegible.1.2 hlegible.2 (endsStmt_free hk) ls s' hs' hlt hnext
  refine .peek h1.2 fun t ht => ?_
  have hkind : t.kind = op.token := congrArg Lexeme.kind ht
  by_cases heq : op = .eq
  · subst heq
    refine .yes hkind (.advance h1.2 TokenKind.noConfusion fun s2 hs2 => ?_)
    refine .bind (hvalue s2 hs2) fun value' s3 h3 => .spanned hs.lt fun span => ⟨?_, h3.2⟩
    exact congrArg₂ (Stmt.reassign default · false .add ·) h1.1 h3.1
  · have hne : op.token ≠ .eq := by
      cases op <;> first | exact TokenKind.noConfusion | exact absurd rfl heq
    have hcompound : isCompoundAssign op.token = true := by
      cases op <;> first | rfl | exact absurd rfl heq
    refine .no (hkind ▸ hne) (.yes (hkind ▸ hcompound) ?_)
    refine .advance h1.2 op.token_ne fun s2 hs2 => ?_
    refine .bind (hvalue s2 hs2) fun value' s3 h3 => .spanned hs.lt fun span => ⟨?_, h3.2⟩
    rw [StmtText.tree, if_neg heq, bne_iff_ne.2 heq, hkind]
    exact congrArg₂ (Stmt.reassign default · true (compoundOp op.token) ·) h1.1 h3.1

/-- The type of a declaration, if it has one. -/
def typeText : Option TypeText → List Lexeme
  | none => []
  | some type => symbol .colon :: munch type.halves

theorem typeText_passes (type : Option TypeText) : Passes (typeText type) := by
  cases type with
  | none => exact .nil
  | some type => exact .cons rfl type.passes_munch

theorem decl_lexemes (pattern : PatternText) (type : Option TypeText) (init : ExprText) :
    (StmtText.decl pattern type init).lexemes =
      pattern.lexemes ++ (typeText type ++ symbol .colonEq :: init.lexemes) := by
  cases type <;> rw [StmtText.lexemes] <;> rfl

theorem parseStmt_decl (h : ExprsRead inp M back) (hm : m.bank = 0) {pattern : PatternText}
    {type : Option TypeText} {init : ExprText}
    (hlegible : (StmtText.decl pattern type init).legible m.allow k = true)
    (hk : endsStmt k = true) :
    Takes inp m M (inp.parseStmt back) (StmtText.decl pattern type init).lexemes k fun result =>
      result.plain = (StmtText.decl pattern type init).tree := by
  intro ls s hs hM hnext
  simp only [StmtText.legible, Bool.and_eq_true] at hlegible
  rw [decl_lexemes, List.append_assoc, List.append_assoc, List.cons_append] at hs hM
  have hscan : (scan (pattern.lexemes ++
      (typeText type ++ symbol .colonEq :: (init.lexemes ++ ls))) 0).lead = .decl := by
    rw [scan_passed hlegible.1.1.1.2, scan_append, typeText_passes type 0]
    rfl
  have hlead := hs.scanLead
  rw [hscan] at hlead
  refine .here (.step hlead ?_)
  have hends : endsPattern (nextKind (typeText type ++ symbol .colonEq :: (init.lexemes ++ ls))) =
      true := by
    cases type <;> rfl
  refine .bind (parsePattern_takes hlegible.1.1.1.1 hends _ s hs hM rfl) fun pattern' s1 h1 => ?_
  have hlt : (init.lexemes ++ ls).length < M := by
    simp only [List.length_append, List.length_cons] at hM ⊢
    omega
  have hinit : ∀ (type' : Option Ty) (s' : PState), type'.map Ty.plain = type.map TypeText.tree →
      At inp m (symbol .colonEq :: (init.lexemes ++ ls)) s' →
      Gives (inp.expect .colonEq "\x60:=\x60" >>= fun _ => back.expr >>= fun init' =>
        inp.spanFrom s.pos >>= fun span => pure (Stmt.decl span pattern' type' init')) s'
        fun result s2 => result.plain = (StmtText.decl pattern type init).tree ∧ At inp m ls s2 := by
    intro type' s' htype hs'
    refine .expect hs' TokenKind.noConfusion fun s2 hs2 => ?_
    refine .bind (h.takes hm hlegible.1.2 hlegible.2 (endsStmt_free hk) ls s2 hs2 hlt hnext)
      fun init' s3 h3 => .spanned hs.lt fun span => ⟨?_, h3.2⟩
    rw [Stmt.plain, h1.1, htype, h3.1, StmtText.tree]
  cases type with
  | none =>
    refine .decline h1.2 TokenKind.noConfusion TokenKind.noConfusion ?_
    exact .step rfl (hinit none s1 rfl h1.2)
  | some type =>
    have htype := hlegible.1.1.2
    rw [Option.all_some, Bool.and_eq_true] at htype
    refine .accept h1.2 TokenKind.noConfusion fun s2 (hs2 : At inp m
      (munch type.halves ++ symbol .colonEq :: (init.lexemes ++ ls)) s2) => ?_
    have hsome : Gives (some <$> inp.parseClosedType) s2 fun type' s' =>
        type'.map Ty.plain = some type.tree ∧
          At inp m (symbol .colonEq :: (init.lexemes ++ ls)) s' :=
      .map ((parseClosedType_takes hm htype.1 htype.2 _ s2 hs2 hs2.lt_fuel rfl).mono
        fun type' s' h' => ⟨congrArg some h'.1, h'.2⟩)
    exact .yes rfl (.bind hsome fun type' s3 h3 => hinit type' s3 h3.1 h3.2)

theorem parseStmt_takes (h : ExprsRead inp M back) (hm : m.bank = 0) {stmt : StmtText}
    (hlegible : stmt.legible m.allow k = true) (hk : endsStmt k = true) :
    Takes inp m M (inp.parseStmt back) stmt.lexemes k fun result => result.plain = stmt.tree := by
  cases stmt with
  | decl pattern type init => exact parseStmt_decl h hm hlegible hk
  | reassign place op value => exact parseStmt_reassign h hm hlegible hk
  | expr value => exact parseStmt_expr h hm hlegible hk

/-- A statement begins with something that a block goes on at. -/
theorem StmtText.begin {allow : Bool} {stmt : StmtText} (hlegible : stmt.legible allow k = true) :
    ∃ l ls, stmt.lexemes = l :: ls ∧ endsStmt l.kind = false := by
  have hexpr : ∀ {e : ExprText}, e.legible allow = true →
      ∃ l ls, e.lexemes = l :: ls ∧ endsStmt l.kind = false := by
    intro e he
    obtain ⟨l, tl, hl, hstart⟩ := e.begin allow he
    refine ⟨l, tl, hl, ?_⟩
    generalize l.kind = k at hstart
    have hstart := startsAt_mono (Nat.zero_le _) hstart
    cases k <;> first | rfl | exact Bool.noConfusion hstart
  cases stmt with
  | decl pattern type init =>
    obtain ⟨l, tl, hl, hstart, -⟩ := pattern.begin
    refine ⟨l, _, by rw [decl_lexemes, hl, List.cons_append], ?_⟩
    generalize l.kind = k at hstart
    cases k <;> first | rfl | exact Bool.noConfusion hstart
  | reassign place op value =>
    simp only [StmtText.legible, Bool.and_eq_true] at hlegible
    obtain ⟨l, tl, hl, hstart⟩ := hexpr hlegible.1.1.1.1
    exact ⟨l, _, by rw [StmtText.lexemes, hl, List.cons_append], hstart⟩
  | expr value =>
    simp only [StmtText.legible, Bool.and_eq_true] at hlegible
    exact hexpr hlegible.1.1

/-! ## Blocks -/

theorem Gives.blockSemicolon {acc : List Stmt × Option Expr}
    {R : (List Stmt × Option Expr) × Bool → PState → Prop}
    (hs : At inp m (symbol .semicolon :: ls) s) (hR : ∀ s', At inp m ls s' → R (acc, true) s') :
    Gives (inp.blockRound back acc) s R :=
  .unclosed hs TokenKind.noConfusion TokenKind.noConfusion TokenKind.noConfusion
    (.accept hs TokenKind.noConfusion fun s1 hs1 => .yes rfl (.pure (hR s1 hs1)))

theorem Gives.blockSemicolons {n fuel : Nat} {acc : List Stmt × Option Expr}
    {Q : List Stmt × Option Expr → PState → Prop}
    (hs : At inp m (List.replicate n (symbol .semicolon) ++ ls) s)
    (hfuel : (List.replicate n (symbol .semicolon) ++ ls).length < fuel)
    (hloop : ∀ (s' : PState) (fuel' : Nat), At inp m ls s' → ls.length < fuel' →
      Gives (loopM (inp.blockRound back) fuel' acc) s' Q) :
    Gives (loopM (inp.blockRound back) fuel acc) s Q := by
  induction n generalizing s fuel with
  | zero => exact hloop s fuel hs hfuel
  | succ n ih =>
    obtain ⟨fuel, rfl⟩ := Nat.exists_eq_succ_of_ne_zero (Nat.ne_zero_of_lt hfuel)
    rw [List.replicate_succ, List.cons_append] at hs hfuel
    refine .round (.blockSemicolon hs fun s1 hs1 => ⟨rfl, ?_, ?_⟩)
    · exact hs.pos_lt hs1 (by rw [List.length_cons]; omega)
    · exact ih hs1 (Nat.lt_of_succ_lt_succ hfuel)

/-- What a round does with a statement that is not the value of the block. -/
def Input.pushStmt (inp : Input) (acc : List Stmt × Option Expr) (stmt : Stmt) :
    PM ((List Stmt × Option Expr) × Bool) := do
  let acc := (acc.1 ++ [stmt], acc.2)
  if ← inp.accept .semicolon then return (acc, true)
  else if (← inp.check .rBrace) || (← inp.atEnd) then return (acc, true)
  else
    report (← inp.peek).span "expected \x60;\x60"
    inp.synchronize
    return (acc, true)

/-- What it does with any statement. -/
def Input.endStmt (inp : Input) (acc : List Stmt × Option Expr) (stmt : Stmt) (last : Bool) :
    PM ((List Stmt × Option Expr) × Bool) := do
  match stmt, last with
  | .expr _ value, true => return ((acc.1, some value), false)
  | stmt, _ => inp.pushStmt acc stmt

/-- A statement that is followed by a semicolon. -/
theorem Gives.blockStmt (h : ExprsRead inp M back) (hm : m.bank = 0) {stmt : StmtText}
    (hlegible : stmt.legible m.allow .semicolon = true) {acc : List Stmt × Option Expr}
    {R : (List Stmt × Option Expr) × Bool → PState → Prop}
    (hs : At inp m (stmt.lexemes ++ symbol .semicolon :: ls) s)
    (hM : (stmt.lexemes ++ symbol .semicolon :: ls).length < M)
    (hR : ∀ (stmt' : Stmt) (s' : PState), stmt'.plain = stmt.tree → At inp m ls s' →
      R ((acc.1 ++ [stmt'], acc.2), true) s') : Gives (inp.blockRound back acc) s R := by
  obtain ⟨l, tl, hl, hstart⟩ := StmtText.begin hlegible
  have hs' : At inp m (l :: (tl ++ symbol .semicolon :: ls)) s := by rwa [hl, List.cons_append] at hs
  simp only [endsStmt, Bool.or_eq_false_iff, beq_eq_false_iff_ne] at hstart
  refine .unclosed hs' TokenKind.noConfusion hstart.1.2 hstart.2 ?_
  refine .decline hs' TokenKind.noConfusion hstart.1.1 (.no Bool.false_ne_true ?_)
  refine .recovered (parseStmt_takes h hm hlegible rfl _ s hs hM rfl) fun stmt' s1 h1 => ?_
  refine .check h1.2 TokenKind.noConfusion (.atEnd h1.2 ?_)
  have hpush : Gives (inp.pushStmt acc stmt') s1 R :=
    .accept h1.2 TokenKind.noConfusion fun s2 hs2 => .yes rfl (.pure (hR stmt' s2 h1.1 hs2))
  cases stmt' <;> exact hpush

/-- The last statement before the brace: an expression is the value of the block and ends the loop. -/
theorem blockRounds_last (h : ExprsRead inp M back) (hm : m.bank = 0) {stmt : StmtText}
    (hlegible : stmt.legible m.allow .rBrace = true) {acc : List Stmt} {fuel : Nat}
    (hs : At inp m (stmt.lexemes ++ symbol .rBrace :: ls) s)
    (hM : (stmt.lexemes ++ symbol .rBrace :: ls).length < M)
    (hfuel : (stmt.lexemes ++ symbol .rBrace :: ls).length < fuel) :
    Gives (loopM (inp.blockRound back) fuel (acc, none)) s fun r s' =>
      (r.1.map Stmt.plain = acc.map Stmt.plain ++ LineText.stmts [.mk stmt 0] ∧
        Expr.plainOption r.2 = LineText.lastValue [.mk stmt 0]) ∧
        At inp m (symbol .rBrace :: ls) s' := by
  obtain ⟨fuel, rfl⟩ := Nat.exists_eq_succ_of_ne_zero (Nat.ne_zero_of_lt hfuel)
  obtain ⟨l, tl, hl, hstart⟩ := StmtText.begin hlegible
  have hs' : At inp m (l :: (tl ++ symbol .rBrace :: ls)) s := by rwa [hl, List.cons_append] at hs
  simp only [endsStmt, Bool.or_eq_false_iff, beq_eq_false_iff_ne] at hstart
  have hlen : (symbol .rBrace :: ls).length < (stmt.lexemes ++ symbol .rBrace :: ls).length := by
    simp only [hl, List.length_append, List.length_cons]
    omega
  -- up to the statement, the round is the same
  have hround : ∀ {R : (List Stmt × Option Expr) × Bool → PState → Prop},
      (∀ (stmt' : Stmt) (s1 : PState), stmt'.plain = stmt.tree → At inp m (symbol .rBrace :: ls) s1 →
        Gives (inp.endStmt (acc, none) stmt' true) s1 R) → Gives (inp.blockRound back (acc, none)) s R := by
    intro R hR
    refine .unclosed hs' TokenKind.noConfusion hstart.1.2 hstart.2 ?_
    refine .decline hs' TokenKind.noConfusion hstart.1.1 (.no Bool.false_ne_true ?_)
    refine .recovered (parseStmt_takes h hm hlegible rfl _ s hs hM rfl) fun stmt' s1 h1 => ?_
    exact .check h1.2 TokenKind.noConfusion (.atEnd h1.2 (hR stmt' s1 h1.1 h1.2))
  -- a statement that is no expression is pushed, and the next round finds the brace
  have hpush : ∀ stmt' : Stmt, stmt'.plain = stmt.tree → (LineText.mk stmt 0).value = none →
      LineText.stmts [.mk stmt 0] = [stmt.tree] → inp.endStmt (acc, none) stmt' true =
        inp.pushStmt (acc, none) stmt' → ∀ s1, At inp m (symbol .rBrace :: ls) s1 →
      Gives (inp.endStmt (acc, none) stmt' true) s1 fun r s' => r.2 = true ∧ s.pos < s'.pos ∧
        Gives (loopM (inp.blockRound back) fuel r.1) s' fun r s' =>
          (r.1.map Stmt.plain = acc.map Stmt.plain ++ LineText.stmts [.mk stmt 0] ∧
            Expr.plainOption r.2 = LineText.lastValue [.mk stmt 0]) ∧
            At inp m (symbol .rBrace :: ls) s' := by
    intro stmt' hplain hvalue hstmts hend s1 hs1
    rw [hend]
    refine .decline hs1 TokenKind.noConfusion TokenKind.noConfusion (.no Bool.false_ne_true ?_)
    refine .closed hs1 TokenKind.noConfusion rfl (.pure ⟨rfl, hs.pos_lt hs1 hlen, ?_⟩)
    obtain ⟨fuel, rfl⟩ := Nat.exists_eq_succ_of_ne_zero
      (Nat.ne_zero_of_lt (Nat.lt_of_lt_of_le hlen (Nat.le_of_lt_succ hfuel)))
    refine .stop (.closed hs1 TokenKind.noConfusion rfl (.pure ⟨rfl, ⟨?_, ?_⟩, hs1⟩))
    · rw [List.map_append, List.map_singleton, hplain, hstmts]
    · exact hvalue.symm
  cases stmt with
  | expr value =>
    refine .stop (hround fun stmt' s1 h1 hs1 => ?_)
    cases stmt' with
    | expr span value' =>
      refine .pure ⟨rfl, ⟨(List.append_nil _).symm, ?_⟩, hs1⟩
      have hplain : value'.plain = value.tree := by
        rw [Stmt.plain, StmtText.tree, Stmt.expr.injEq] at h1
        exact h1.2
      exact congrArg some hplain
    | decl =>
      rw [Stmt.plain, StmtText.tree] at h1
      exact Stmt.noConfusion h1
    | reassign =>
      rw [Stmt.plain, StmtText.tree] at h1
      exact Stmt.noConfusion h1
  | decl pattern type init =>
    refine .round (hround fun stmt' s1 h1 hs1 => hpush stmt' h1 rfl rfl ?_ s1 hs1)
    cases stmt' with
    | expr =>
      rw [Stmt.plain, StmtText.tree] at h1
      exact Stmt.noConfusion h1
    | decl => rfl
    | reassign => rfl
  | reassign place op value =>
    refine .round (hround fun stmt' s1 h1 hs1 => hpush stmt' h1 rfl rfl ?_ s1 hs1)
    cases stmt' with
    | expr =>
      rw [Stmt.plain, StmtText.tree] at h1
      exact Stmt.noConfusion h1
    | decl => rfl
    | reassign => rfl

/-- The lines of a block up to the closing brace. -/
theorem blockRounds_give (h : ExprsRead inp M back) (hm : m.bank = 0) {lines : List LineText}
    (hlegible : LineText.listLegible m.allow lines = true) {acc : List Stmt} {fuel : Nat}
    (hs : At inp m (LineText.listLexemes lines ++ symbol .rBrace :: ls) s)
    (hM : (LineText.listLexemes lines ++ symbol .rBrace :: ls).length < M)
    (hfuel : (LineText.listLexemes lines ++ symbol .rBrace :: ls).length < fuel) :
    Gives (loopM (inp.blockRound back) fuel (acc, none)) s fun r s' =>
      (r.1.map Stmt.plain = acc.map Stmt.plain ++ LineText.stmts lines ∧
        Expr.plainOption r.2 = LineText.lastValue lines) ∧ At inp m (symbol .rBrace :: ls) s' := by
  induction lines generalizing s acc fuel with
  | nil =>
    obtain ⟨fuel, rfl⟩ := Nat.exists_eq_succ_of_ne_zero (Nat.ne_zero_of_lt hfuel)
    refine .stop (.closed hs TokenKind.noConfusion rfl (.pure ⟨rfl, ⟨?_, rfl⟩, hs⟩))
    exact (List.append_nil _).symm
  | cons line lines ih =>
    obtain ⟨stmt, semicolons⟩ := line
    simp only [LineText.listLegible, LineText.legible, Bool.and_eq_true, Bool.or_eq_true,
      bne_iff_ne] at hlegible
    cases semicolons with
    | zero =>
      have hlast : lines = [] := by
        rcases hlegible.1.2 with hnil | hne
        · exact List.isEmpty_iff.1 hnil
        · exact absurd rfl hne
      subst hlast
      have htext : LineText.listLexemes [.mk stmt 0] ++ symbol .rBrace :: ls =
          stmt.lexemes ++ symbol .rBrace :: ls := by
        simp [LineText.listLexemes, LineText.lexemes]
      rw [htext] at hs hM hfuel
      exact blockRounds_last h hm hlegible.1.1 hs hM hfuel
    | succ n =>
      obtain ⟨fuel, rfl⟩ := Nat.exists_eq_succ_of_ne_zero (Nat.ne_zero_of_lt hfuel)
      have htext : LineText.listLexemes (.mk stmt (n + 1) :: lines) ++ symbol .rBrace :: ls =
          stmt.lexemes ++ symbol .semicolon :: (List.replicate n (symbol .semicolon) ++
            (LineText.listLexemes lines ++ symbol .rBrace :: ls)) := by
        simp [LineText.listLexemes, LineText.lexemes, List.replicate_succ]
      rw [htext] at hs hM hfuel
      refine .round (.blockStmt h hm hlegible.1.1 hs hM fun stmt' s1 h1 hs1 => ⟨rfl, ?_, ?_⟩)
      · refine hs.pos_lt hs1 ?_
        simp only [List.length_append, List.length_cons]
        omega
      · have hfuel1 : (List.replicate n (symbol .semicolon) ++
            (LineText.listLexemes lines ++ symbol .rBrace :: ls)).length < fuel := by
          simp only [List.length_append, List.length_cons] at hfuel ⊢
          omega
        refine .blockSemicolons hs1 hfuel1 fun s2 fuel2 hs2 hfuel2 => ?_
        have hM2 : (LineText.listLexemes lines ++ symbol .rBrace :: ls).length < M := by
          simp only [List.length_append, List.length_cons] at hM ⊢
          omega
        refine (ih hlegible.2 hs2 hM2 hfuel2).mono fun r s3 h3 => ⟨⟨?_, ?_⟩, h3.2⟩
        · have hvalue : (LineText.mk stmt (n + 1)).isValue = false := by
            cases stmt <;> rfl
          rw [h3.1.1, LineText.stmts, hvalue, Bool.and_false, if_neg Bool.false_ne_true,
            List.map_append, List.map_singleton, h1, List.append_assoc]
          rfl
        · rw [h3.1.2, LineText.lastValue]
          cases lines with
          | nil => rfl
          | cons => rfl

/-- A call of a production that reads its own first bracket or keyword guards the way back itself. -/
theorem parseBlock_takes (h : ExprsRead inp M back) (hm : m.bank = 0) {block : BlockText}
    (hlegible : block.legible m.allow = true) :
    Takes inp m (M + 1) (inp.parseBlock back) block.lexemes k fun result =>
      result.plain = block.tree := by
  intro ls s hs hM _
  obtain ⟨lines⟩ := block
  have hback := h.after hs (Nat.le_of_lt_succ hM)
  rw [BlockText.lexemes, List.cons_append, List.append_assoc, List.singleton_append] at hs hback
  refine .here (.expect hs TokenKind.noConfusion fun s1 hs1 => ?_)
  refine .bind (blockRounds_give hback hm hlegible hs1 (Nat.lt_succ_self _) hs1.lt_fuel)
    fun body s2 h2 => ?_
  refine .expect h2.2 TokenKind.noConfusion fun s3 hs3 => .spanned hs.lt fun span => ⟨?_, hs3⟩
  exact congrArg₂ (Block.mk default) ((Stmt.plainAll_eq _).trans h2.1.1) h2.1.2

/-! ## Conditions -/

/-- Where no struct literal is allowed. -/
def Mode.barred (m : Mode) : Mode := ⟨m.bank, false, m.bag⟩

theorem Gives.barred {p : PM Expr} {e : ExprText}
    (hp : Takes inp m.barred M p e.lexemes k fun result => result.plain = e.tree)
    (hs : At inp m (e.lexemes ++ ls) s) (hM : (e.lexemes ++ ls).length < M) (hk : nextKind ls = k) :
    Gives (withoutStructLit p) s fun result s' => result.plain = e.tree ∧ At inp m ls s' := by
  have hbar : At inp m.barred (e.lexemes ++ ls) { s with allowStructLit := false } :=
    ⟨hs.ahead, hs.stream, hs.bank, rfl, hs.bag⟩
  obtain ⟨result, u, hrun, hplain, hu⟩ := hp ls _ hbar hM hk
  refine ⟨result, { u with allowStructLit := s.allowStructLit }, ?_, hplain, ?_⟩
  · rw [withoutStructLit, hrun]
  · exact ⟨hu.ahead, hu.stream, hu.bank, hs.allow, hu.bag⟩

/-- A condition stands before the brace of its body. -/
theorem parseCond_takes (h : ExprsRead inp M back) (hm : m.bank = 0) {cond : CondText}
    (hlegible : cond.legible m.allow = true) :
    Takes inp m M (inp.parseCond back) cond.lexemes .lBrace fun result =>
      result.plain = cond.tree := by
  intro ls s hs hM hnext
  have hlead := hs.scanLead
  cases cond with
  | value e =>
    simp only [CondText.legible, Bool.and_eq_true, bne_iff_ne] at hlegible
    have hstop : (scan ls 0).lead = .none := by
      obtain ⟨l, ls, rfl⟩ : ∃ l ls', ls = l :: ls' := by
        cases ls with
        | nil => exact TokenKind.noConfusion hnext
        | cons l ls => exact ⟨l, ls, rfl⟩
      obtain ⟨kind, text⟩ := l
      obtain rfl : kind = .lBrace := hnext
      rfl
    rw [CondText.lexemes, e.scan_stop hlegible.2 hstop] at hlead
    refine .step hlead ?_
    have hbarred : m.barred.bank = 0 := hm
    have hexpr : Takes inp m.barred M back.expr e.lexemes .lBrace fun result =>
        result.plain = e.tree := h.takes hbarred hlegible.1.1 hlegible.1.2 rfl
    refine .bind (.barred hexpr hs hM hnext) fun result s1 h1 => ?_
    exact .pure ⟨congrArg Cond.value h1.1, h1.2⟩
  | pattern lhs init =>
    simp only [CondText.legible, Bool.and_eq_true] at hlegible
    rw [CondText.lexemes, List.append_assoc, List.cons_append] at hs hM hlead
    have hdecl : (scan (symbol .colonEq :: (init.lexemes ++ ls)) 0).lead = .decl := rfl
    rw [scan_passed hlegible.1.1.2, hdecl] at hlead
    refine .step hlead ?_
    refine .bind (parsePattern_takes hlegible.1.1.1 rfl _ s hs hM rfl) fun lhs' s1 h1 => ?_
    refine .expect h1.2 TokenKind.noConfusion fun s2 (hs2 : At inp m (init.lexemes ++ ls) s2) => ?_
    have hlt : (init.lexemes ++ ls).length < M := by
      simp only [List.length_append, List.length_cons] at hM ⊢
      omega
    refine .bind (h.takes hm hlegible.1.2 hlegible.2 rfl ls s2 hs2 hlt hnext) fun init' s3 h3 => ?_
    exact .pure ⟨congrArg₂ Cond.pattern h1.1 h3.1, h3.2⟩

/-! ## Control flow -/

theorem BlockText.begin (block : BlockText) : ∃ ls, block.lexemes = symbol .lBrace :: ls := by
  obtain ⟨lines⟩ := block
  exact ⟨_, rfl⟩

theorem parseIf_takes (h : ExprsRead inp M back) (hm : m.bank = 0) {cond : CondText}
    {thenBlock : BlockText} {elseBlock : Option BlockText}
    (hlegible : (ExprText.ifExpr cond thenBlock elseBlock).legible m.allow = true)
    (hends : (ExprText.ifExpr cond thenBlock elseBlock).ends m.allow k = true) :
    Takes inp m (M + 1) (inp.parseIf back) (ExprText.ifExpr cond thenBlock elseBlock).lexemes k
      fun result => result.plain = (ExprText.ifExpr cond thenBlock elseBlock).tree := by
  intro ls s hs hM hnext
  have hback := h.after hs (Nat.le_of_lt_succ hM)
  simp only [ExprText.legible, Bool.and_eq_true] at hlegible
  rw [ExprText.lexemes, List.cons_append, List.append_assoc, List.append_assoc] at hs hback
  generalize hN : (symbol .if :: (cond.lexemes ++ (thenBlock.lexemes ++
    (BlockText.elseLexemes elseBlock ++ ls)))).length = N at hback
  have hnextBlock : nextKind (thenBlock.lexemes ++ (BlockText.elseLexemes elseBlock ++ ls)) =
      .lBrace := by
    obtain ⟨tl, htl⟩ := thenBlock.begin
    rw [htl]
    rfl
  simp only [List.length_append, List.length_cons] at hN
  refine .here (.expect hs TokenKind.noConfusion fun s1 hs1 => ?_)
  refine .bind (parseCond_takes hback hm hlegible.1.1 _ s1 hs1 ?_ hnextBlock) fun cond' s2 h2 => ?_
  · simp only [List.length_append]
    omega
  refine .bind (parseBlock_takes hback hm hlegible.1.2 _ s2 h2.2 ?_ rfl) fun then' s3 h3 => ?_
  · simp only [List.length_append]
    omega
  cases elseBlock with
  | none =>
    have hne : nextKind ls ≠ .else := by
      rw [hnext]
      simpa [ExprText.ends] using hends
    refine .decline h3.2 TokenKind.noConfusion hne (.step rfl (.spanned hs.lt fun span => ⟨?_, h3.2⟩))
    change Expr.ifExpr default cond'.plain then'.plain none = _
    rw [h2.1, h3.1]
    rfl
  | some block =>
    refine .accept h3.2 TokenKind.noConfusion fun s4 (hs4 : At inp m (block.lexemes ++ ls) s4) => ?_
    have helse : Gives (some <$> inp.parseBlock (back.after s.pos)) s4 fun else' s' =>
        Block.plainOption else' = some block.tree ∧ At inp m ls s' := by
      refine .map ((parseBlock_takes hback hm hlegible.2 ls s4 hs4 ?_ hnext).mono
        fun else' s' h' => ⟨congrArg some h'.1, h'.2⟩)
      simp only [BlockText.elseLexemes, List.length_append, List.length_cons] at hN ⊢
      omega
    refine .yes rfl (.bind helse fun else' s5 h5 => .spanned hs.lt fun span => ⟨?_, h5.2⟩)
    change Expr.ifExpr default cond'.plain then'.plain (Block.plainOption else') = _
    rw [h2.1, h3.1, h5.1]
    rfl

theorem parseWhile_takes (h : ExprsRead inp M back) (hm : m.bank = 0) {cond : CondText}
    {body : BlockText} (hlegible : (ExprText.whileExpr cond body).legible m.allow = true) :
    Takes inp m (M + 1) (inp.parseWhile back) (ExprText.whileExpr cond body).lexemes k
      fun result => result.plain = (ExprText.whileExpr cond body).tree := by
  intro ls s hs hM hnext
  have hback := h.after hs (Nat.le_of_lt_succ hM)
  simp only [ExprText.legible, Bool.and_eq_true] at hlegible
  rw [ExprText.lexemes, List.cons_append, List.append_assoc] at hs hback
  have hnextBlock : nextKind (body.lexemes ++ ls) = .lBrace := by
    obtain ⟨tl, htl⟩ := body.begin
    rw [htl]
    rfl
  refine .here (.expect hs TokenKind.noConfusion fun s1 hs1 => ?_)
  refine .bind (parseCond_takes hback hm hlegible.1 _ s1 hs1 (Nat.lt_succ_self _) hnextBlock)
    fun cond' s2 h2 => ?_
  refine .bind (parseBlock_takes hback hm hlegible.2 _ s2 h2.2 ?_ hnext) fun body' s3 h3 => ?_
  · simp only [List.length_append, List.length_cons]
    omega
  exact .spanned hs.lt fun span => ⟨congrArg₂ (Expr.whileExpr default) h2.1 h3.1, h3.2⟩

theorem parseLoop_takes (h : ExprsRead inp M back) (hm : m.bank = 0) {body : BlockText}
    (hlegible : body.legible m.allow = true) :
    Takes inp m (M + 1) (inp.parseLoop back) (ExprText.loop body).lexemes k
      fun result => result.plain = (ExprText.loop body).tree := by
  intro ls s hs hM hnext
  rw [ExprText.lexemes, List.cons_append] at hs hM
  refine .here (.expect hs TokenKind.noConfusion fun s1 hs1 => ?_)
  refine .bind (parseBlock_takes h hm hlegible ls s1 hs1 (Nat.lt_of_succ_lt hM) hnext)
    fun body' s2 h2 => ?_
  exact .spanned hs.lt fun span => ⟨congrArg (Expr.loop default) h2.1, h2.2⟩

theorem parseBlockExpr_takes (h : ExprsRead inp M back) (hm : m.bank = 0) {block : BlockText}
    (hlegible : block.legible m.allow = true) :
    Takes inp m (M + 1) (inp.parseBlockExpr back) (ExprText.block block).lexemes k
      fun result => result.plain = (ExprText.block block).tree := by
  intro ls s hs hM hnext
  rw [ExprText.lexemes] at hs hM
  refine .here (.bind (parseBlock_takes h hm hlegible ls s hs hM hnext) fun block' s1 h1 => ?_)
  exact .spanned hs.lt fun span => ⟨congrArg (Expr.block default) h1.1, h1.2⟩

end Alcy.Parser
