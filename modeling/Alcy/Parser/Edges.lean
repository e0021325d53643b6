import Alcy.Parser.Outcomes

/-! # The right edge of an expression

An expression that does not end before the token that follows it runs into that token at its right
edge: a path into a brace, a bare `ret`, an open range or the type of a cast. Given what happens there,
every parse function that reads the expression comes out the same way. -/
namespace Alcy.Parser
open Alcy.Ast Alcy.Diag
open Alcy.Lexer (Token TokenKind)
open PM

variable {K : Judgement} {inp : Input} {m : Mode} {ls : List Lexeme} {s : PState} {back : ExprRec}
  {M level : Nat}

/-- The type of a cast at the right edge ends before a lexeme of this kind. -/
def ExprText.castStops (k : TokenKind) : ExprText → Bool
  | .unary _ inner | .borrow _ inner => inner.castStops k
  | .binary _ _ rhs => rhs.castStops k
  | .cast _ type => type.stops k
  | .returnExpr (some value) => value.castStops k
  | .range _ _ (some stop) => stop.castStops k
  | _ => true

/-- What happens at the edge, where the parser stands at the token that the expression runs into. -/
structure Edge (K : Judgement) (inp : Input) (m : Mode) (ls : List Lexeme) (back : ExprRec) : Prop where
  path : ∀ (path : PathText) (mark : Nat) (s : PState),
    (ExprText.path path).ends m.allow (nextKind ls) = false → At inp m (path.lexemes ++ ls) s →
    Falls K (inp.parsePathExpr mark (back.after mark)) s
  ret : ∀ s : PState, (ExprText.returnExpr none).ends m.allow (nextKind ls) = false →
    At inp m ls s → Falls K back.expr s
  range : ∀ (op : RangeOp) (s : PState), (ExprText.range none op none).ends m.allow (nextKind ls) = false →
    At inp m ls s → Falls K (inp.parseOr back) s
  free : freeAt 0 (nextKind ls) = true
  noElse : nextKind ls ≠ .else

/-- A parse function of a level comes out as judged on every expression that runs into what follows. -/
def Misses (K : Judgement) (inp : Input) (m : Mode) (ls : List Lexeme) (M level : Nat) (p : PM Expr) :
    Prop :=
  ∀ (e : ExprText) (s : PState), level ≤ e.level → e.legible m.allow = true →
    e.ends m.allow (nextKind ls) = false → e.castStops (nextKind ls) = true →
    At inp m (e.lexemes ++ ls) s → (e.lexemes ++ ls).length < M → Falls K p s

structure ExprsMiss (K : Judgement) (inp : Input) (m : Mode) (ls : List Lexeme) (M : Nat)
    (back : ExprRec) : Prop where
  expr : Misses K inp m ls M 0 back.expr
  pow : Misses K inp m ls M 10 back.pow
  unary : Misses K inp m ls M 12 back.unary

theorem Misses.after {p : PM Expr} {ls' : List Lexeme} (h : Misses K inp m ls M level p)
    (hs : At inp m ls' s) (hM : ls'.length ≤ M) :
    Misses K inp m ls ls'.length level (p.after s.pos) := by
  intro e s' hlevel hlegible hends hcast hs' hlt
  exact (h e s' hlevel hlegible hends hcast hs' (Nat.lt_of_lt_of_le hlt hM)).after (hs.pos_lt hs' hlt)

theorem ExprsMiss.after {ls' : List Lexeme} (h : ExprsMiss K inp m ls M back) (hs : At inp m ls' s)
    (hM : ls'.length ≤ M) : ExprsMiss K inp m ls ls'.length (back.after s.pos) :=
  ⟨h.expr.after hs hM, h.pow.after hs hM, h.unary.after hs hM⟩

section
variable (hK : Lasting K) (hm : m.bank = 0)
include hK hm

/-! ## Binary operators -/

theorem parseLeft_misses {op : TokenKind → Option BinaryOp} {operand : PM Expr}
    (htable : OpTable op level) (hstays : Stays Forward operand)
    (hreads : LevelReads inp M (level + 1) operand)
    (h : Misses K inp m ls M (level + 1) operand) :
    Misses K inp m ls M level (inp.parseLeft op operand) := by
  intro e s hlevel hlegible hends hcast hs hM
  by_cases hhigher : level + 1 ≤ e.level
  · exact parseLeft_falls hK hstays (h e s hhigher hlegible hends hcast hs hM)
  · have heq : e.level = level := by omega
    obtain ⟨b, lhs, rhs, rfl, hop⟩ :=
      level_binary heq htable.lowest (Nat.le_trans htable.highest (by decide))
    simp only [ExprText.legible, Bool.and_eq_true, decide_eq_true_eq] at hlegible
    rw [htable.left b hop, htable.right b hop] at hlegible
    rw [ExprText.lexemes, List.append_assoc, List.cons_append] at hs hM
    have hbin : freeAt (level + 1) (binaryToken b) = true := by
      rw [freeAt, takenAt_binary, hop]
      exact decide_eq_true (Nat.lt_succ_self _)
    have hlhs : lhs.ends m.allow (nextKind (symbol (binaryToken b) :: (rhs.lexemes ++ ls))) = true :=
      hlegible.1.1.2
    obtain ⟨lhs', s1, fuel, -, hs1, hfuel, hrun⟩ := parseLeft_reaches htable hreads hm lhs
      hlegible.1.1.1.1 hlegible.1.1.1.2 hlhs hbin hs hM
    obtain ⟨fuel, rfl⟩ := Nat.exists_eq_succ_of_ne_zero (Nat.ne_zero_of_lt hfuel)
    have hround : Falls K (inp.leftRound s.pos op operand lhs') s1 := by
      refine .peek hs1 fun t ht => ?_
      rw [show t.kind = binaryToken b from congrArg Lexeme.kind ht, htable.takes b hop]
      have hne : (symbol (binaryToken b)).kind ≠ .eof := by
        cases b <;> exact TokenKind.noConfusion
      refine .advance hs1 hne fun s2 (hs2 : At inp m (rhs.lexemes ++ ls) s2) => ?_
      have hlt : (rhs.lexemes ++ ls).length < M := by
        simp only [List.length_append, List.length_cons] at hM ⊢
        omega
      exact hK.bind (h rhs s2 hlegible.1.2 hlegible.2 hends hcast hs2 hlt) fun _ => .spanned
    rw [Falls, Comes, hrun]
    refine hK.loop hround fun lhs => stays_peek.bind fun t => ?_
    cases op t.kind with
    | none => exact .pure
    | some op => exact stays_advance.bind fun _ => hstays.bind fun _ => .spanned

theorem parseCmp_misses (hstays : ExprStays Forward back)
    (hreads : LevelReads inp M 4 (inp.parseBitor back))
    (h : Misses K inp m ls M 4 (inp.parseBitor back)) :
    Misses K inp m ls M 3 (inp.parseCmp back) := by
  intro e s hlevel hlegible hends hcast hs hM
  by_cases hhigher : 4 ≤ e.level
  · exact parseCmp_falls hK hstays (h e s hhigher hlegible hends hcast hs hM)
  · have heq : e.level = 3 := by omega
    obtain ⟨b, lhs, rhs, rfl, hop⟩ := level_binary heq (by decide) (by decide)
    obtain ⟨htoken, hleft, hright⟩ := cmpOp_token hop
    simp only [ExprText.legible, Bool.and_eq_true, decide_eq_true_eq, hleft, hright] at hlegible
    rw [ExprText.lexemes, List.append_assoc, List.cons_append] at hs hM
    have hbin : freeAt 4 (binaryToken b) = true := by
      rw [freeAt, takenAt_binary, hop]
      rfl
    refine .here (.bind (hreads m lhs _ hm hlegible.1.1.1.1 hlegible.1.1.1.2 hlegible.1.1.2 hbin _ s
      hs hM rfl) fun lhs' s1 h1 => .peek h1.2 fun t ht => ?_)
    rw [show t.kind = binaryToken b from congrArg Lexeme.kind ht, htoken]
    have hne : (symbol (binaryToken b)).kind ≠ .eof := by
      cases b <;> exact TokenKind.noConfusion
    refine .advance h1.2 hne fun s2 (hs2 : At inp m (rhs.lexemes ++ ls) s2) => ?_
    have hlt : (rhs.lexemes ++ ls).length < M := by
      simp only [List.length_append, List.length_cons] at hM ⊢
      omega
    exact hK.bind (h rhs s2 hlegible.1.2 hlegible.2 hends hcast hs2 hlt) fun _ => .spanned

theorem parsePow_misses (hstays : ExprStays Forward back) (hmiss : ExprsMiss K inp m ls M back)
    (hreads : LevelReads inp (M + 1) 11 (inp.parseCast back))
    (h : Misses K inp m ls (M + 1) 11 (inp.parseCast back)) :
    Misses K inp m ls (M + 1) 10 (inp.parsePow back) := by
  intro e s hlevel hlegible hends hcast hs hM
  by_cases hhigher : 11 ≤ e.level
  · exact parsePow_falls hK hstays (h e s hhigher hlegible hends hcast hs hM)
  · have heq : e.level = 10 := by omega
    obtain ⟨b, lhs, rhs, rfl, hop⟩ := level_binary heq (by decide) (by decide)
    obtain rfl := opLevel_pow hop
    simp only [ExprText.legible, Bool.and_eq_true, decide_eq_true_eq] at hlegible
    rw [ExprText.lexemes, List.append_assoc, List.cons_append] at hs hM
    refine .here (.bind (hreads m lhs _ hm hlegible.1.1.1.1 hlegible.1.1.1.2 hlegible.1.1.2 rfl _ s
      hs hM rfl) fun lhs' s1 h1 => ?_)
    refine .accept h1.2 TokenKind.noConfusion fun s2 (hs2 : At inp m (rhs.lexemes ++ ls) s2) =>
      .yes rfl ?_
    have hlt : (rhs.lexemes ++ ls).length <
        (lhs.lexemes ++ symbol (binaryToken .pow) :: (rhs.lexemes ++ ls)).length := by
      simp only [List.length_append, List.length_cons]
      omega
    have hrhs := (hmiss.after hs (Nat.le_of_lt_succ hM)).pow rhs s2 hlegible.1.2 hlegible.2 hends hcast hs2 hlt
    exact hK.bind hrhs fun _ => .spanned

/-! ## Casts and prefixes -/

omit hm in
theorem parseCast_misses (h : Misses K inp m ls M 12 (inp.parseUnary back)) :
    Misses K inp m ls M 11 (inp.parseCast back) := by
  intro e s hlevel hlegible hends hcast hs hM
  by_cases hhigher : 12 ≤ e.level
  · exact parseCast_falls hK (h e s hhigher hlegible hends hcast hs hM)
  · have heq : e.level = 11 := by omega
    obtain ⟨inner, type, rfl⟩ := level_cast heq
    exact Bool.noConfusion (hends.symm.trans hcast)

omit hm in
theorem parseUnary_misses (hmiss : ExprsMiss K inp m ls M back)
    (h : Misses K inp m ls (M + 1) 14 (inp.parsePostfix back)) :
    Misses K inp m ls (M + 1) 12 (inp.parseUnary back) := by
  intro e s hlevel hlegible hends hcast hs hM
  have hguarded := hmiss.after hs (Nat.le_of_lt_succ hM)
  rw [Input.parseUnary_eq]
  refine .here ?_
  rcases level_prefix hlevel with ⟨op, inner, rfl⟩ | ⟨isMut, inner, rfl⟩ | hhigher
  · rw [ExprText.legible, Bool.and_eq_true, decide_eq_true_eq] at hlegible
    have hprefixed : Falls K (inp.prefixed s.pos (back.after s.pos) op) s := by
      have hne : (symbol (unaryToken op)).kind ≠ .eof := by
        cases op <;> exact TokenKind.noConfusion
      refine .advance hs hne fun s1 hs1 => ?_
      exact hK.bind (hguarded.unary inner s1 hlegible.1 hlegible.2 hends hcast hs1 (Nat.lt_succ_self _))
        fun _ => .spanned
    refine .peek hs fun t ht => ?_
    rw [show t.kind = unaryToken op from congrArg Lexeme.kind ht]
    cases op <;> exact hprefixed
  · rw [ExprText.legible, Bool.and_eq_true, decide_eq_true_eq] at hlegible
    rw [ExprText.lexemes, List.cons_append, List.append_assoc] at hs hguarded
    refine .peek hs fun t ht => ?_
    rw [show t.kind = .amp from congrArg Lexeme.kind ht]
    refine .advance hs TokenKind.noConfusion fun s1 hs1 => ?_
    obtain ⟨l, tl, hl, hstart⟩ := inner.begin m.allow hlegible.2
    have hmut : nextKind (inner.lexemes ++ ls) ≠ .mut := by
      rw [hl]
      exact startsAt_ne hstart rfl
    refine .mut hs1 hmut fun s2 hs2 => ?_
    have hlt : (inner.lexemes ++ ls).length <
        (symbol .amp :: (mutText isMut ++ (inner.lexemes ++ ls))).length := by
      simp only [List.length_append, List.length_cons]
      omega
    exact hK.bind (hguarded.unary inner s2 hlegible.1 hlegible.2 hends hcast hs2 hlt) fun _ => .spanned
  · obtain ⟨l, tl, hl, hstart⟩ := e.begin m.allow hlegible
    have hs' : At inp m (l :: (tl ++ ls)) s := by
      rwa [hl, List.cons_append] at hs
    refine .peek hs' fun t ht => ?_
    rw [show t.kind = l.kind from congrArg Lexeme.kind ht,
      unaryBranch_postfix (startsAt_prefixOp (startsAt_mono hhigher hstart))]
    exact h e s hhigher hlegible hends hcast hs hM

/-! ## Ranges -/

omit hm in
theorem parseRangeEnd_misses (hedge : Edge K inp m ls back)
    (h : Misses K inp m ls M 1 (inp.parseOr back)) {op : RangeOp} {start : Option Expr}
    {stop : Option ExprText} {mark : Nat} (hopen : stop.isNone = true ∨ op ≠ .dotDot)
    (hlegible : ExprText.boundLegible m.allow stop = true)
    (hends : (ExprText.range none op stop).ends m.allow (nextKind ls) = false)
    (hcast : (ExprText.range none op stop).castStops (nextKind ls) = true)
    (hs : At inp m (ExprText.optionLexemes stop ++ ls) s)
    (hM : (ExprText.optionLexemes stop ++ ls).length < M) :
    Falls K (inp.parseRangeEnd mark back start op.token) s := by
  have hdot : op.token ≠ .dotDot := by
    intro hdot
    obtain rfl : op = .dotDot := by cases op <;> first | rfl | exact TokenKind.noConfusion hdot
    cases stop with
    | none => exact Bool.noConfusion hends
    | some stop => exact hopen.elim Bool.noConfusion fun h => h rfl
  cases stop with
  | none =>
    have hor := hedge.range op s hends hs
    obtain ⟨l, rest, rfl⟩ := List.exists_cons_of_ne_nil hs.stream.ne_nil
    rw [ExprText.ends, Bool.or_eq_false_iff] at hends
    refine .no hdot (.peek hs fun t ht => .no ?_ (hK.bind hor fun _ => .spanned))
    rw [show t.kind = l.kind from congrArg Lexeme.kind ht]
    exact Bool.eq_false_iff.1 hends.2
  | some stop =>
    rw [ExprText.boundLegible, Bool.and_eq_true, decide_eq_true_eq] at hlegible
    obtain ⟨l, tl, hl, hstart⟩ := stop.begin m.allow hlegible.2
    have hs' : At inp m (l :: (tl ++ ls)) s := by
      rwa [ExprText.optionLexemes, hl, List.cons_append] at hs
    refine .no hdot (.peek hs' fun t ht => .no ?_ ?_)
    · rw [show t.kind = l.kind from congrArg Lexeme.kind ht,
        startsAt_bound (startsAt_mono hlegible.1 hstart)]
      exact Bool.false_ne_true
    · exact hK.bind (h stop s hlegible.1 hlegible.2 hends hcast hs hM) fun _ => .spanned

theorem parseRange_misses (hstays : ExprStays Forward back) (hedge : Edge K inp m ls back)
    (hreads : LevelReads inp M 1 (inp.parseOr back))
    (h : Misses K inp m ls M 1 (inp.parseOr back)) : Misses K inp m ls M 0 (inp.parseRange back) := by
  intro e s hlevel hlegible hends hcast hs hM
  refine .here ?_
  by_cases hhigher : 1 ≤ e.level
  · obtain ⟨l, tl, hl, hstart⟩ := e.begin m.allow hlegible
    have hs' : At inp m (l :: (tl ++ ls)) s := by
      rwa [hl, List.cons_append] at hs
    refine .peek hs' fun t ht => .no ?_ ?_
    · rw [show t.kind = l.kind from congrArg Lexeme.kind ht,
        startsAt_range (startsAt_mono hhigher hstart)]
      exact Bool.false_ne_true
    · refine hK.bind (h e s hhigher hlegible hends hcast hs hM) fun _ => stays_peek.bind fun _ => ?_
      exact .ite (stays_advance.bind fun _ => stays_parseRangeEnd hstays _ _) .pure
  · obtain ⟨start, op, stop, rfl⟩ := level_range (by omega : e.level = 0)
    simp only [ExprText.legible, Bool.and_eq_true, Bool.or_eq_true, bne_iff_ne] at hlegible
    rw [range_ends] at hends
    rw [ExprText.lexemes, List.append_assoc, List.cons_append] at hs hM
    have hlt : (ExprText.optionLexemes stop ++ ls).length < M := by
      simp only [List.length_append, List.length_cons] at hM ⊢
      omega
    cases start with
    | none =>
      refine .peek hs fun t ht => ?_
      rw [show t.kind = op.token from congrArg Lexeme.kind ht]
      refine .yes op.isRangeOp (.advance hs op.token_ne fun s1 hs1 => ?_)
      exact parseRangeEnd_misses hK hedge h hlegible.1.2 hlegible.2 hends hcast hs1 hlt
    | some start =>
      rw [ExprText.boundLegible, Bool.and_eq_true, decide_eq_true_eq] at hlegible
      obtain ⟨l, tl, hl, hstart⟩ := start.begin m.allow hlegible.1.1.1.2
      have hs' : At inp m (l :: (tl ++ symbol op.token :: (ExprText.optionLexemes stop ++ ls))) s := by
        rwa [ExprText.optionLexemes, hl, List.cons_append] at hs
      refine .peek hs' fun t ht => .no ?_ ?_
      · rw [show t.kind = l.kind from congrArg Lexeme.kind ht,
          startsAt_range (startsAt_mono hlegible.1.1.1.1 hstart)]
        exact Bool.false_ne_true
      · have hfreeop : freeAt 1 op.token = true := by cases op <;> rfl
        refine .bind (hreads m start _ hm hlegible.1.1.1.1 hlegible.1.1.1.2 hlegible.1.1.2 hfreeop _
          s hs hM rfl) fun lhs s1 h1 => .peek h1.2 fun t ht => ?_
        rw [show t.kind = op.token from congrArg Lexeme.kind ht]
        refine .yes op.isRangeOp (.advance h1.2 op.token_ne fun s2 hs2 => ?_)
        have hstop : (ExprText.range none op stop).castStops (nextKind ls) = true := by
          cases stop <;> exact hcast
        exact parseRangeEnd_misses hK hedge h hlegible.1.2 hlegible.2 hends hstop hs2 hlt

/-! ## Primary and postfix expressions -/

omit hm in
theorem parseReturn_misses {mark : Nat} (hmiss : Misses K inp m ls M 0 back.expr)
    (hret : (ExprText.returnExpr none).ends m.allow (nextKind ls) = false →
      ∀ s, At inp m ls s → Falls K back.expr s)
    (hfree : freeAt 0 (nextKind ls) = true) {value : Option ExprText}
    (hlegible : (ExprText.returnExpr value).legible m.allow = true)
    (hends : (ExprText.returnExpr value).ends m.allow (nextKind ls) = false)
    (hcast : (ExprText.returnExpr value).castStops (nextKind ls) = true)
    (hs : At inp m (ExprText.optionLexemes value ++ ls) s)
    (hM : (ExprText.optionLexemes value ++ ls).length < M) :
    Falls K (inp.parseReturn mark back) s := by
  cases value with
  | none =>
    have hexpr := hret hends s hs
    rw [ExprText.optionLexemes, List.nil_append] at hs
    obtain ⟨l, rest, rfl⟩ := List.exists_cons_of_ne_nil hs.stream.ne_nil
    refine .check hs TokenKind.noConfusion (.check hs TokenKind.noConfusion (.atEnd hs ?_))
    exact .no (Bool.eq_false_iff.1 hends) (hK.bind hexpr fun _ => .spanned)
  | some value =>
    have hlegible : value.legible m.allow = true := hlegible
    rw [ExprText.ends, hfree, Bool.true_and] at hends
    obtain ⟨l, tl, hl, hstart⟩ := value.begin m.allow hlegible
    have hs' : At inp m (l :: (tl ++ ls)) s := by
      rwa [ExprText.optionLexemes, hl, List.cons_append] at hs
    refine .check hs' TokenKind.noConfusion (.check hs' TokenKind.noConfusion (.atEnd hs' (.no ?_ ?_)))
    · rw [nextKind_cons, beq_eq_false_iff_ne.2 (startsAt_ne hstart rfl),
        beq_eq_false_iff_ne.2 (startsAt_ne hstart rfl), beq_eq_false_iff_ne.2 (startsAt_ne hstart rfl)]
      exact Bool.false_ne_true
    · exact hK.bind (hmiss value s (Nat.zero_le _) hlegible hends hcast hs hM) fun _ => .spanned

omit hm in
theorem parsePrimary_misses (hmiss : ExprsMiss K inp m ls M back) (hedge : Edge K inp m ls back) :
    Misses K inp m ls (M + 1) 15 (inp.parsePrimary back) := by
  intro e s hlevel hlegible hends hcast hs hM
  have hguarded := hmiss.after hs (Nat.le_of_lt_succ hM)
  rw [Input.parsePrimary_eq]
  refine .here ?_
  cases e with
  | path path =>
    refine .peek hs fun t ht => ?_
    rw [show t.kind = segmentKind path.first from congrArg Lexeme.kind ht, primaryBranch_segment]
    exact hedge.path path s.pos s hends hs
  | returnExpr value =>
    refine .peek hs fun t ht => ?_
    rw [show t.kind = .ret from congrArg Lexeme.kind ht]
    refine .advance hs TokenKind.noConfusion fun s1 hs1 => ?_
    refine parseReturn_misses hK hguarded.expr (fun hret s2 hs2 => ?_) hedge.free hlegible hends hcast
      hs1 (Nat.lt_succ_self _)
    refine .after (hedge.ret s2 hret hs2) (hs.pos_lt hs2 ?_)
    rw [List.length_append]
    exact Nat.lt_add_of_pos_left (Nat.succ_pos _)
  | ifExpr cond thenBlock elseBlock =>
    rw [ExprText.ends, bne_iff_ne.2 hedge.noElse, Bool.or_true] at hends
    exact Bool.noConfusion hends
  | binary b => exact absurd hlevel (by cases b <;> simp [ExprText.level, opLevel])
  | cast | unary | borrow | methodCall | field | index | question | range =>
    exact absurd hlevel (by simp [ExprText.level])
  | _ => exact Bool.noConfusion hends

omit hm in
theorem parsePostfix_misses (hstays : ExprStays Forward back)
    (hedge : Edge K inp m ls back) (h : Misses K inp m ls M 15 (inp.parsePrimary back)) :
    Misses K inp m ls M 14 (inp.parsePostfix back) := by
  intro e s hlevel hlegible hends hcast hs hM
  by_cases hprimary : 15 ≤ e.level
  · rw [Input.parsePostfix_eq]
    exact (h e s hprimary hlegible hends hcast hs hM).first hK
      fun _ _ => .loopM (fun base => stays_postfixRound hstays.after base) _ _
  · have hparen : nextKind ls ≠ .lParen := by
      intro heq
      exact freeAt_ne hedge.free (Nat.zero_le 14) (heq ▸ rfl)
    rcases level_postfix (by omega : e.level = 14) with ⟨callee, args, trailing, rfl, hpath⟩ |
      ⟨receiver, name, args, trailing, rfl⟩ | ⟨receiver, name, rfl⟩ | ⟨receiver, place, rfl⟩ |
      ⟨inner, rfl⟩
    · exact Bool.noConfusion hends
    · exact Bool.noConfusion hends
    · rw [ExprText.ends, bne_iff_ne.2 hparen, Bool.or_true] at hends
      exact Bool.noConfusion hends
    · exact Bool.noConfusion hends
    · exact Bool.noConfusion hends

/-! ## All levels -/

theorem exprLevels_miss (hstays : ExprStays Forward back) (hback : ExprsRead inp M back)
    (hmiss : ExprsMiss K inp m ls M back) (hedge : Edge K inp m ls back) :
    ExprsMiss K inp m ls (M + 1)
      ⟨inp.parseRange back, inp.parsePow back, inp.parseUnary back⟩ := by
  have hpostfix := parsePostfix_misses hK hstays hedge (parsePrimary_misses hK hmiss hedge)
  have runary := parseUnary_reads hback (parsePostfix_reads hback)
  have hunary := parseUnary_misses hK hmiss hpostfix
  have rpow := parsePow_reads hback (parseCast_reads runary)
  have hpow := parsePow_misses hK hm hstays hmiss (parseCast_reads runary)
    (parseCast_misses hK hunary)
  have rmul := parseLeft_reads mulTable rpow
  have hmul := parseLeft_misses hK hm mulTable (stays_parsePow hstays) rpow hpow
  have radd := parseLeft_reads addTable rmul
  have hadd := parseLeft_misses hK hm addTable (stays_parseMul hstays) rmul hmul
  have rshift := parseLeft_reads shiftTable radd
  have hshift := parseLeft_misses hK hm shiftTable (stays_parseAdd hstays) radd hadd
  have rbitand := parseLeft_reads bitAndTable rshift
  have hbitand := parseLeft_misses hK hm bitAndTable (stays_parseShift hstays) rshift hshift
  have rbitxor := parseLeft_reads bitXorTable rbitand
  have hbitxor := parseLeft_misses hK hm bitXorTable (stays_parseBitand hstays) rbitand hbitand
  have rbitor := parseLeft_reads bitOrTable rbitxor
  have hbitor := parseLeft_misses hK hm bitOrTable (stays_parseBitxor hstays) rbitxor hbitxor
  have rcmp := parseCmp_reads rbitor
  have hcmp := parseCmp_misses hK hm hstays rbitor hbitor
  have rand := parseLeft_reads andTable rcmp
  have hand := parseLeft_misses hK hm andTable (stays_parseCmp hstays) rcmp hcmp
  have ror := parseLeft_reads orTable rand
  have hor := parseLeft_misses hK hm orTable (stays_parseAnd hstays) rand hand
  exact ⟨parseRange_misses hK hm hstays hedge ror hor, hpow, hunary⟩

/-- An expression that runs into what follows comes out as its edge does. -/
theorem exprLevel_misses (hedge : ∀ depth, ls.length < depth + 1 → Edge K inp m ls (inp.exprLevel depth)) :
    ∀ depth : Nat, ExprsMiss K inp m ls (depth + 1) (inp.exprLevel depth) := by
  intro depth
  induction depth with
  | zero =>
    have hnone : ∀ {level : Nat} {p : PM Expr}, Misses K inp m ls 1 level p := by
      intro level p e s _ _ _ _ hs hM
      have := List.length_pos_iff.2 hs.stream.ne_nil
      omega
    exact ⟨hnone, hnone, hnone⟩
  | succ depth ih =>
    by_cases hlen : ls.length < depth + 1
    · exact exprLevels_miss hK hm (stays_exprLevel depth) (exprLevel_reads depth) ih (hedge depth hlen)
    · have hnone : ∀ {level : Nat} {p : PM Expr}, Misses K inp m ls (depth + 2) level p := by
        intro level p e s _ hlegible _ _ hs hM
        obtain ⟨l, tl, hl, -⟩ := e.begin m.allow hlegible
        rw [hl, List.length_append, List.length_cons] at hM
        omega
      exact ⟨hnone, hnone, hnone⟩

end

end Alcy.Parser
