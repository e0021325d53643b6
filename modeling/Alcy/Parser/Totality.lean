import Alcy.Parser.Safe

/-! # The parser is total

One theorem for each production, in the order of the source. A production that
is entered at a position is given callees that are safe past it; the levels then
close by induction on how many tokens are left. -/
namespace Alcy.Parser
open Alcy.Ast Alcy.Diag
open Alcy.Lexer (Token TokenKind)
open PM
open Input (PatternRec bindingSegment cmpOp isRangeOp)

variable {inp : Input} {lo : Nat} {α : Type} (heof : EndsInEof inp)

/-- A result with a span that starts at an earlier mark. -/
theorem span_total {mark : Nat} (hm : mark < inp.count) {f : Span → α} {hi : Nat} :
    Safe inp lo hi free (inp.spanFrom mark >>= fun span => pure (f span)) :=
  Reads.bind (reads_spanFrom hm) fun _ => safe_pure fun h => h

include heof

/-! ## Identifiers, paths and types -/

theorem parseIdent_consumes (what : String) : Consumes inp lo (inp.parseIdent what) :=
  peek_bind heof
    (fun _ _ => Safe.dite (fun _ => advance_bind heof total_pure) fun _ => (expect_fail heof))
    fun t ht => by rw [ht]; exact expect_fail heof

theorem parseSegments_consumes : Consumes inp lo inp.parseSegments := by
  have hround : ∀ (t : Token) (segments : List Ident), t.kind ≠ .eof →
      Safe inp lo inp.live always (do
        inp.advance
        if ← inp.accept .colonColon then
          if ← inp.atEnd then
            inp.expect .ident "path segment"
            fail
          else return (segments ++ [inp.tokenIdent t], true)
        else return (segments ++ [inp.tokenIdent t], false)) :=
    fun t segments _ => advance_bind heof <| accept_bind heof
      (atEnd_bind heof (expect_fail heof) total_pure.early) total_pure
  refine loopM_consumes ?_ fun segments => ?_
  · refine peek_bind heof (fun t ht => Safe.ite (fun _ => hround t [] ht) fun _ => ?_) fun t ht => ?_
    · exact expect_fail heof
    · rw [ht]; exact expect_fail heof
  · refine peek_bind heof (fun t ht => Safe.ite (fun _ => ?_) fun _ => ?_) fun t ht => ?_
    · exact (hround t segments ht).mono (Nat.le_refl _) (Nat.le_refl _) fun _ _ => trivial
    · exact Safe.ite (fun _ => expect_fail heof) fun _ => stop_safe
    · rw [ht]
      exact Safe.ite (fun h => by cases h) fun _ =>
        Safe.ite (fun _ => expect_fail heof) fun _ => stop_safe

theorem parsePath_consumes : Consumes inp lo inp.parsePath :=
  here_bind fun _ _ hm => (parseSegments_consumes heof).bind fun _ => span_total hm

theorem consumeGt_total : Total inp lo inp.consumeGt := by
  refine Reads.bind reads_bankedGt fun _ => Safe.dite (fun _ => ?_) fun _ => ?_
  · exact modify_bind (fun _ => rfl) total_pure
  · exact accept_bind heof total_pure <| accept_bind heof
      (modify_bind (fun _ => rfl) total_pure) total_pure

omit heof in
theorem typeArgsClosed_reads : Reads inp inp.typeArgsClosed :=
  (reads_check _).next fun _ => (reads_check _).next fun _ => reads_atEnd.next fun _ => reads_pure

theorem parseParenType_total {mark : Nat} (hm : mark < inp.count) {type : PM Ty}
    (htype : Consumes inp lo type) : Total inp lo (inp.parseParenType mark type) :=
  accept_bind heof (span_total hm) <| htype.bind fun _ => accept_bind heof
    ((commaRest_total heof (htype.from (by omega))).next fun _ =>
      expect_bind heof (span_total hm))
    (expect_bind heof total_pure)

theorem parsePathType_consumes {mark : Nat} (hm : mark < inp.count) {type : PM Ty}
    (htype : Consumes inp (lo + 1) type) : Consumes inp lo (inp.parsePathType mark type) :=
  (parsePath_consumes heof).bind fun _ => accept_bind heof
    ((commaList_total heof typeArgsClosed_reads (htype.from (by omega))).next fun _ =>
      (consumeGt_total heof).next fun _ => Safe.ite (fun _ => span_total hm)
        fun _ => expect_fail heof)
    (span_total hm)

theorem parseTypeWith_consumes {type : PM Ty}
    (htype : ∀ mark, lo ≤ mark → Consumes inp (mark + 1) type) :
    Consumes inp lo (inp.parseTypeWith type) := by
  refine here_bind fun mark hlo hm => ?_
  have htype : Consumes inp (mark + 1) (type.after mark) :=
    safe_after (htype mark hlo) (Nat.le_refl _)
  have hadv : ∀ {p : PM Ty}, Total inp (mark + 1) p →
      Safe inp mark inp.live always (inp.advance >>= fun _ => p) := fun hp => advance_bind heof hp
  refine peek_bind heof (fun t ht => ?_) fun t ht => ?_
  · split
    · exact hadv (parseParenType_total heof hm htype)
    · exact hadv (span_total hm)
    · exact hadv (accept_bind heof ((htype.from (by omega)).bind fun _ => span_total hm)
        (htype.bind fun _ => span_total hm))
    · exact hadv (span_total hm)
    · split
      · exact hadv (span_total hm)
      · exact (parsePathType_consumes heof hm htype).early
  · rw [ht]
    exact parsePathType_consumes heof hm htype

/-- Enough levels for the tokens that are left. -/
theorem typeLevel_consumes : ∀ (depth lo : Nat), inp.count ≤ lo + depth →
    Consumes inp lo (inp.typeLevel depth)
  | 0, lo, h => fun s h1 _ h3 => by omega
  | depth + 1, lo, h => parseTypeWith_consumes heof fun mark hlo =>
      typeLevel_consumes depth (mark + 1) (by omega)

theorem parseType_consumes : Consumes inp lo inp.parseType :=
  typeLevel_consumes heof _ lo (by rw [Input.count]; omega)

theorem parseClosedType_consumes : Consumes inp lo inp.parseClosedType :=
  (parseType_consumes heof).bind fun _ => Reads.bind reads_bankedGt fun _ => Safe.dite
    (fun _ => modify_bind (fun _ => rfl) (expect_fail heof)) fun _ => total_pure

/-! ## Patterns -/

omit heof in
/-- The calls back into patterns are safe from `lo` on. -/
structure PatternSafe (inp : Input) (lo : Nat) (calls : PatternRec) : Prop where
  pattern : Consumes inp lo calls.pattern
  primary : Consumes inp lo calls.primary

omit heof in
theorem PatternSafe.after {self : PatternRec} {mark : Nat} (h : PatternSafe inp (mark + 1) self) :
    PatternSafe inp (mark + 1) (self.after mark) :=
  ⟨safe_after h.pattern (Nat.le_refl _), safe_after h.primary (Nat.le_refl _)⟩

omit heof in
theorem PatternSafe.from {self : PatternRec} {lo' : Nat} (h : PatternSafe inp lo self)
    (hlo : lo ≤ lo') : PatternSafe inp lo' self := ⟨h.pattern.from hlo, h.primary.from hlo⟩

theorem parseParenPattern_total {mark : Nat} (hm : mark < inp.count) {self : PatternRec}
    (h : PatternSafe inp lo self) : Total inp lo (inp.parseParenPattern mark self) :=
  h.pattern.bind fun _ => accept_bind heof
    ((commaRest_total heof (h.pattern.from (by omega))).next fun _ =>
      expect_bind heof (span_total hm))
    (expect_bind heof total_pure)

theorem parseFieldPattern_consumes {self : PatternRec} (h : PatternSafe inp lo self) :
    Consumes inp lo (inp.parseFieldPattern self) :=
  (parseIdent_consumes heof _).bind fun _ => accept_bind heof
    ((h.pattern.from (by omega)).bind fun _ => total_pure) total_pure

theorem parsePathPattern_total {mark : Nat} (hm : mark < inp.count) {self : PatternRec}
    (h : PatternSafe inp lo self) (path : Path) :
    Total inp lo (inp.parsePathPattern mark self path) :=
  accept_bind heof
    ((commaList_total heof (reads_check _) (h.pattern.from (by omega))).next fun _ =>
      expect_bind heof (span_total hm)) <|
  accept_bind heof
    ((commaRest_total heof (parseFieldPattern_consumes heof (h.from (by omega)))).next fun _ =>
      expect_bind heof (span_total hm))
    (span_total hm)

theorem parseNamedPattern_consumes {mark : Nat} (hm : mark < inp.count) {self : PatternRec}
    (h : PatternSafe inp (lo + 1) self) : Consumes inp lo (inp.parseNamedPattern mark self) := by
  refine (parsePath_consumes heof).bind fun path => ?_
  cases bindingSegment path with
  | some name => exact span_total hm
  | none => exact parsePathPattern_total heof hm h path

theorem parsePrimaryPattern_consumes {self : PatternRec}
    (h : ∀ mark, lo ≤ mark → PatternSafe inp (mark + 1) self) :
    Consumes inp lo (inp.parsePrimaryPattern self) := by
  refine here_bind fun mark hlo hm => ?_
  have h := (h mark hlo).after
  have hadv : ∀ {p : PM Pattern}, Total inp (mark + 1) p →
      Safe inp mark inp.live always (inp.advance >>= fun _ => p) := fun hp => advance_bind heof hp
  have hpath := parseNamedPattern_consumes heof hm h
  refine peek_bind heof (fun t ht => ?_) fun t ht => by rw [ht]; exact hpath
  split
  · exact hadv (span_total hm)
  · exact hadv ((parseIdent_consumes heof _).bind fun _ => span_total hm)
  · refine hadv (peek_bind heof (fun n hn => ?_) fun n hn => by rw [hn]; exact expect_fail heof)
    exact Safe.dite (fun _ => advance_bind heof (span_total hm)) fun _ =>
      Safe.dite (fun _ => advance_bind heof (span_total hm)) fun _ => expect_fail heof
  · exact hadv (accept_bind heof ((h.primary.from (by omega)).bind fun _ => span_total hm)
      (h.primary.bind fun _ => span_total hm))
  · exact hadv (parseParenPattern_total heof hm h)
  · split
    · exact hadv (span_total hm)
    · exact hpath.early

theorem parseOrPattern_consumes {self : PatternRec}
    (h : ∀ mark, lo ≤ mark → PatternSafe inp (mark + 1) self) :
    Consumes inp lo (inp.parseOrPattern self) := by
  refine here_bind fun mark hlo hm => ?_
  have hprimary : ∀ lo', mark ≤ lo' → Consumes inp lo' (inp.parsePrimaryPattern self) :=
    fun lo' hlo' => parsePrimaryPattern_consumes heof fun m hm => h m (by omega)
  refine (hprimary mark (Nat.le_refl _)).bind fun _ => accept_bind heof ?_ total_pure
  refine (loopM_total fun acc => ?_).next fun _ => span_total hm
  exact (hprimary _ (by omega)).bind fun _ => accept_bind heof total_pure total_pure

theorem patternLevel_safe : ∀ (depth lo : Nat), inp.count ≤ lo + depth →
    PatternSafe inp lo (inp.patternLevel depth)
  | 0, lo, h => ⟨fun s h1 _ h3 => by omega, fun s h1 _ h3 => by omega⟩
  | depth + 1, lo, h =>
    have hself : ∀ mark, lo ≤ mark → PatternSafe inp (mark + 1) (inp.patternLevel depth) :=
      fun mark hlo => patternLevel_safe depth (mark + 1) (by omega)
    ⟨parseOrPattern_consumes heof hself, parsePrimaryPattern_consumes heof hself⟩

theorem parsePattern_consumes : Consumes inp lo inp.parsePattern :=
  (patternLevel_safe heof _ lo (by rw [Input.count]; omega)).pattern

/-! ## Statements, blocks and control flow -/

omit heof in
/-- The calls back into expressions are safe from `lo` on. -/
structure ExprSafe (inp : Input) (lo : Nat) (calls : ExprRec) : Prop where
  expr : Consumes inp lo calls.expr
  pow : Consumes inp lo calls.pow
  unary : Consumes inp lo calls.unary

omit heof in
theorem ExprSafe.after {self : ExprRec} {mark : Nat} (h : ExprSafe inp (mark + 1) self) :
    ExprSafe inp (mark + 1) (self.after mark) :=
  ⟨safe_after h.expr (Nat.le_refl _), safe_after h.pow (Nat.le_refl _),
    safe_after h.unary (Nat.le_refl _)⟩

omit heof in
theorem ExprSafe.from {self : ExprRec} {lo' : Nat} (h : ExprSafe inp lo self) (hlo : lo ≤ lo') :
    ExprSafe inp lo' self := ⟨h.expr.from hlo, h.pow.from hlo, h.unary.from hlo⟩

omit heof in
/-- A production that is entered at `lo` or later may call back past its mark. -/
def PastMark (inp : Input) (lo : Nat) (self : ExprRec) : Prop :=
  ∀ mark, lo ≤ mark → ExprSafe inp (mark + 1) self

omit heof in
theorem PastMark.from {self : ExprRec} {lo' : Nat} (h : PastMark inp lo self) (hlo : lo ≤ lo') :
    PastMark inp lo' self := fun mark hm => h mark (by omega)

omit heof in
theorem ExprSafe.pastMark {self : ExprRec} (h : ExprSafe inp lo self) : PastMark inp lo self :=
  fun _ hm => h.from (by omega)

/-- A part that is there when the token that announces it is. -/
theorem optional_total {kind : TokenKind} {β : Type} {p : PM α} {f : Option α → PM β}
    (hp : Consumes inp (lo + 1) p) (hf : ∀ x, Total inp lo (f x)) :
    Total inp lo (inp.accept kind >>= fun b =>
      if b then (some <$> p) >>= fun x => f x else pure none >>= fun x => f x) :=
  accept_bind heof ((Safe.map hp).bind fun _ => (hf _).from (by omega)) (total_pure.next fun _ => hf _)

theorem parseStmt_consumes {self : ExprRec} (h : ExprSafe inp lo self) :
    Consumes inp lo (inp.parseStmt self) := by
  refine here_bind fun mark hlo hm => Reads.bind reads_scanLead fun lead => ?_
  have h := h.from hlo
  -- both assignments go on with a value once their token is found
  have hvalue : ∀ {f : Span → Expr → Stmt}, Safe inp (mark + 1) inp.live free (do
      inp.advance
      let value ← self.expr
      return f (← inp.spanFrom mark) value) := fun {f} =>
    advance_bind heof ((h.expr.from (by omega)).bind fun _ => span_total hm)
  cases lead with
  | none => exact h.expr.bind fun _ => span_total hm
  | decl =>
    refine (parsePattern_consumes heof).bind fun _ =>
      optional_total heof (parseClosedType_consumes heof) fun _ => expect_bind heof ?_
    exact (h.expr.from (by omega)).bind fun _ => span_total hm
  | reassign =>
    refine h.expr.bind fun _ => peek_bind heof (fun t _ => ?_) fun t ht => ?_
    · exact Safe.dite (fun _ => hvalue) fun _ => Safe.ite (fun _ => hvalue) fun _ => expect_fail heof
    · rw [ht]
      exact expect_fail heof

theorem blockRound_safe {self : ExprRec} (h : ExprSafe inp lo self)
    (acc : List Stmt × Option Expr) :
    Safe inp lo inp.count (fun r => r.2 = true) (inp.blockRound self acc) := by
  refine closed_bind heof stop_safe <| accept_bind heof total_pure <|
    recover_bind heof (parseStmt_consumes heof h) fun stmt => ?_
  cases stmt with
  | none => exact total_pure
  | some stmt =>
    refine Reads.bind (reads_check _) fun b => Reads.bind reads_atEnd fun e => ?_
    dsimp only
    split
    · exact total_pure
    · refine accept_bind heof total_pure <| closed_bind heof total_pure <|
        Reads.bind reads_peek fun _ => (report_total _ _).early.next fun _ => ?_
      exact (synchronize_total heof).next fun _ => total_pure

theorem parseBlock_consumes {self : ExprRec} (h : PastMark inp lo self) :
    Consumes inp lo (inp.parseBlock self) := by
  refine here_bind fun mark hlo hm => expect_bind heof ?_
  refine (loopM_total fun acc => blockRound_safe heof (h mark hlo).after acc).next fun _ => ?_
  exact expect_bind heof (span_total hm)

theorem parseBlockExpr_consumes {self : ExprRec} (h : PastMark inp lo self) :
    Consumes inp lo (inp.parseBlockExpr self) :=
  here_bind fun _ hlo hm => (parseBlock_consumes heof (h.from hlo)).bind fun _ => span_total hm

theorem parseCond_consumes {self : ExprRec} (h : ExprSafe inp lo self) :
    Consumes inp lo (inp.parseCond self) := by
  refine Reads.bind reads_scanLead fun lead => ?_
  have hvalue : Consumes inp lo (do return .value (← withoutStructLit self.expr) : PM Cond) :=
    (safe_withoutStructLit h.expr).bind fun _ => total_pure
  cases lead with
  | decl =>
    exact (parsePattern_consumes heof).bind fun _ => expect_bind heof <|
      (h.expr.from (by omega)).bind fun _ => total_pure
  | reassign => exact hvalue
  | none => exact hvalue

theorem parseIf_consumes {self : ExprRec} (h : PastMark inp lo self) :
    Consumes inp lo (inp.parseIf self) := by
  refine here_bind fun mark hlo hm => expect_bind heof ?_
  have h := (h mark hlo).after
  refine (parseCond_consumes heof h).bind fun _ =>
    (parseBlock_consumes heof (h.from (by omega)).pastMark).bind fun _ => ?_
  exact optional_total heof (parseBlock_consumes heof (h.from (by omega)).pastMark)
    fun _ => span_total hm

theorem parseArm_consumes {self : ExprRec} (h : ExprSafe inp lo self) :
    Consumes inp lo (inp.parseArm self) :=
  (parsePattern_consumes heof).bind fun _ => expect_bind heof <|
    (h.expr.from (by omega)).bind fun _ => total_pure

theorem matchRound_safe {self : ExprRec} (h : ExprSafe inp lo self) (acc : List MatchArm) :
    Safe inp lo inp.count (fun r => r.2 = true) (inp.matchRound self acc) :=
  closed_bind heof stop_safe <| accept_bind heof total_pure <| accept_bind heof total_pure <|
    recover_bind heof (parseArm_consumes heof h) fun r => by cases r <;> exact total_pure

theorem parseMatch_consumes {self : ExprRec} (h : PastMark inp lo self) :
    Consumes inp lo (inp.parseMatch self) := by
  refine here_bind fun mark hlo hm => expect_bind heof ?_
  have h := (h mark hlo).after
  refine (safe_withoutStructLit h.expr).bind fun _ => expect_bind heof ?_
  refine (loopM_total fun acc => matchRound_safe heof (h.from (by omega)) acc).next fun _ => ?_
  exact expect_bind heof (span_total hm)

theorem parseLoop_consumes {self : ExprRec} (h : PastMark inp lo self) :
    Consumes inp lo (inp.parseLoop self) :=
  here_bind fun _ hlo hm => expect_bind heof <|
    (parseBlock_consumes heof (h.from (by omega))).bind fun _ => span_total hm

theorem parseWhile_consumes {self : ExprRec} (h : PastMark inp lo self) :
    Consumes inp lo (inp.parseWhile self) := by
  refine here_bind fun mark hlo hm => expect_bind heof ?_
  have h := (h mark hlo).after
  exact (parseCond_consumes heof h).bind fun _ =>
    (parseBlock_consumes heof (h.from (by omega)).pastMark).bind fun _ => span_total hm

/-! ## Primary and postfix expressions -/

theorem parseArgs_total {self : ExprRec} (h : ExprSafe inp lo self) :
    Total inp lo (inp.parseArgs self) :=
  (commaList_total heof (reads_check _) h.expr).next fun _ => expect_bind heof total_pure

theorem parseParenExpr_total {mark : Nat} (hm : mark < inp.count) {self : ExprRec}
    (h : ExprSafe inp lo self) : Total inp lo (inp.parseParenExpr mark self) :=
  h.expr.bind fun _ => accept_bind heof
    ((commaRest_total heof (h.expr.from (by omega))).next fun _ => expect_bind heof (span_total hm))
    (expect_bind heof total_pure)

omit heof in
theorem parseReturn_total {mark : Nat} (hm : mark < inp.count) {self : ExprRec}
    (h : ExprSafe inp lo self) : Total inp lo (inp.parseReturn mark self) :=
  Reads.bind (reads_check _) fun _ => Reads.bind (reads_check _) fun _ => Reads.bind reads_atEnd
    fun _ => Safe.ite (fun _ => span_total hm) fun _ => h.expr.bind fun _ => span_total hm

theorem fieldRound_safe {self : ExprRec} (h : ExprSafe inp lo self)
    (acc : List FieldInit × Option Expr) :
    Safe inp lo inp.count (fun r => r.2 = true) (inp.fieldRound self acc) := by
  refine closed_bind heof stop_safe <| accept_bind heof ?_ ?_
  · exact (h.expr.from (by omega)).bind fun _ => total_pure
  · refine (parseIdent_consumes heof _).early.bind fun _ => expect_bind heof ?_
    refine (h.expr.from (by omega)).bind fun _ => ?_
    exact accept_bind heof total_pure total_pure

theorem parseStructLit_total {mark : Nat} (hm : mark < inp.count) {self : ExprRec}
    (h : ExprSafe inp lo self) (path : Path) :
    Total inp lo (inp.parseStructLit mark self path) := by
  refine (loopM_total fun acc => fieldRound_safe heof h acc).next fun (fields, base) => ?_
  have hclose : ∀ {lo' : Nat} {base : Option Expr}, Total inp lo' (do
      inp.expect .rBrace "\x60\x7d\x60"
      return Expr.struct (← inp.spanFrom mark) path fields base) :=
    expect_bind heof (span_total hm)
  cases base with
  | some base => exact total_pure.next fun _ => hclose
  | none => exact optional_total heof (h.expr.from (by omega)) fun _ => hclose

theorem acceptStructLit_total : Total inp lo inp.acceptStructLit :=
  Reads.bind reads_allowStructLit fun _ => Safe.ite
    (fun _ => check_bind heof (advance_bind heof total_pure) total_pure) fun _ => total_pure

theorem parsePathExpr_consumes {mark : Nat} (hm : mark < inp.count) {self : ExprRec}
    (h : ExprSafe inp (lo + 1) self) : Consumes inp lo (inp.parsePathExpr mark self) := by
  refine (parsePath_consumes heof).bind fun path => accept_bind heof ?_ ?_
  · exact (parseArgs_total heof (h.from (by omega))).next fun _ => span_total hm
  · exact (acceptStructLit_total heof).next fun _ => Safe.ite
      (fun _ => parseStructLit_total heof hm h path) fun _ => span_total hm

theorem parsePrimary_consumes {self : ExprRec} (h : PastMark inp lo self) :
    Consumes inp lo (inp.parsePrimary self) := by
  refine here_bind fun mark hlo hm => ?_
  have hguarded := (h mark hlo).after
  have hadv : ∀ {p : PM Expr}, Total inp (mark + 1) p →
      Safe inp mark inp.live always (inp.advance >>= fun _ => p) := fun hp => advance_bind heof hp
  have hpath := parsePathExpr_consumes heof hm hguarded
  refine peek_bind heof (fun t ht => ?_) fun t ht => by rw [ht]; exact hpath
  split
  · exact hadv (parseParenExpr_total heof hm hguarded)
  · exact (parseBlockExpr_consumes heof (h.from hlo)).early
  · exact (parseIf_consumes heof (h.from hlo)).early
  · exact (parseMatch_consumes heof (h.from hlo)).early
  · exact (parseLoop_consumes heof (h.from hlo)).early
  · exact (parseWhile_consumes heof (h.from hlo)).early
  · exact hadv (parseReturn_total hm hguarded)
  · exact hadv (span_total hm)
  · exact hadv (span_total hm)
  · split
    · exact hadv (span_total hm)
    · exact hpath.early

theorem parseMember_consumes {mark : Nat} (hm : mark < inp.count) {self : ExprRec}
    (h : ExprSafe inp lo self) (base : Expr) :
    Consumes inp lo (inp.parseMember mark self base) := by
  have hname : Consumes inp lo (do
      let name ← inp.parseIdent "field name"
      if ← inp.accept .lParen then
        let args ← inp.parseArgs self
        return .methodCall (← inp.spanFrom mark) base name args
      else return .field (← inp.spanFrom mark) base name : PM Expr) :=
    (parseIdent_consumes heof _).bind fun _ => accept_bind heof
      ((parseArgs_total heof (h.from (by omega))).next fun _ => span_total hm) (span_total hm)
  refine peek_bind heof (fun t _ => Safe.dite (fun _ => ?_) fun _ => hname.early) fun t ht => ?_
  · exact advance_bind heof (span_total hm)
  · rw [ht]
    exact hname

theorem postfixRound_safe {mark : Nat} (hm : mark < inp.count) {self : ExprRec}
    (h : ExprSafe inp lo self) (base : Expr) :
    Safe inp lo inp.count (fun r => r.2 = true) (inp.postfixRound mark self base) := by
  refine accept_bind heof ?_ <| accept_bind heof ?_ <| accept_bind heof ?_ <|
    accept_bind heof (span_total hm) stop_safe
  · exact (parseArgs_total heof (h.from (by omega))).next fun _ => span_total hm
  · exact (parseMember_consumes heof hm (h.from (by omega)) base).bind fun _ => total_pure
  · exact (h.expr.from (by omega)).bind fun _ => expect_bind heof (span_total hm)

theorem parsePostfix_consumes {self : ExprRec} (h : PastMark inp lo self) :
    Consumes inp lo (inp.parsePostfix self) := by
  refine here_bind fun mark hlo hm => (parsePrimary_consumes heof (h.from hlo)).bind fun base => ?_
  exact loopM_total fun base => postfixRound_safe heof hm (h mark hlo).after base

/-! ## Operators -/

theorem parseUnary_consumes {self : ExprRec} (h : PastMark inp lo self) :
    Consumes inp lo (inp.parseUnary self) := by
  refine here_bind fun mark hlo hm => ?_
  have hguarded := (h mark hlo).after
  have hpostfix := parsePostfix_consumes heof (h.from hlo)
  have hprefixed : ∀ {op : UnaryOp}, Safe inp mark inp.live always (do
      inp.advance
      let inner ← (self.after mark).unary
      return Expr.unary (← inp.spanFrom mark) op inner) :=
    advance_bind heof (hguarded.unary.bind fun _ => span_total hm)
  refine peek_bind heof (fun t ht => ?_) fun t ht => by rw [ht]; exact hpostfix
  dsimp only
  split
  · exact hprefixed
  · exact hprefixed
  · exact hprefixed
  · exact advance_bind heof <| accept_bind heof
      ((hguarded.unary.from (by omega)).bind fun _ => span_total hm)
      (hguarded.unary.bind fun _ => span_total hm)
  · exact hpostfix.early

theorem parseCast_consumes {self : ExprRec} (h : PastMark inp lo self) :
    Consumes inp lo (inp.parseCast self) :=
  here_bind fun _ hlo hm => (parseUnary_consumes heof (h.from hlo)).bind fun _ => accept_bind heof
    ((parseClosedType_consumes heof).bind fun _ => span_total hm) total_pure

theorem parsePow_consumes {self : ExprRec} (h : PastMark inp lo self) :
    Consumes inp lo (inp.parsePow self) :=
  here_bind fun mark hlo hm => (parseCast_consumes heof (h.from hlo)).bind fun _ => accept_bind heof
    (((h mark hlo).after.pow.from (by omega)).bind fun _ => span_total hm) total_pure

/-- A level consumes when its operand does, wherever it starts. -/
theorem parseLeft_consumes {op : TokenKind → Option BinaryOp} {operand : PM Expr}
    (hop : op .eof = none) (h : Consumes inp lo operand) :
    Consumes inp lo (inp.parseLeft op operand) := by
  refine here_bind fun mark hlo hm => (h.from hlo).bind fun lhs => loopM_total fun lhs => ?_
  refine peek_bind heof (fun t _ => ?_) fun t ht => by rw [ht, hop]; exact stop_safe
  cases op t.kind with
  | none => exact stop_safe
  | some op => exact advance_bind heof ((h.from (by omega)).bind fun _ => span_total hm)

section Levels
variable {self : ExprRec} (h : PastMark inp lo self)
include h

theorem parseMul_consumes : Consumes inp lo (inp.parseMul self) :=
  parseLeft_consumes heof rfl (parsePow_consumes heof h)

theorem parseAdd_consumes : Consumes inp lo (inp.parseAdd self) :=
  parseLeft_consumes heof rfl (parseMul_consumes heof h)

theorem parseShift_consumes : Consumes inp lo (inp.parseShift self) :=
  parseLeft_consumes heof rfl (parseAdd_consumes heof h)

theorem parseBitand_consumes : Consumes inp lo (inp.parseBitand self) :=
  parseLeft_consumes heof rfl (parseShift_consumes heof h)

theorem parseBitxor_consumes : Consumes inp lo (inp.parseBitxor self) :=
  parseLeft_consumes heof rfl (parseBitand_consumes heof h)

theorem parseBitor_consumes : Consumes inp lo (inp.parseBitor self) :=
  parseLeft_consumes heof rfl (parseBitxor_consumes heof h)

theorem parseCmp_consumes : Consumes inp lo (inp.parseCmp self) := by
  refine here_bind fun mark hlo hm => (parseBitor_consumes heof (h.from hlo)).bind fun lhs => ?_
  refine peek_bind heof (fun t _ => ?_) fun t ht => by rw [ht]; exact total_pure
  cases cmpOp t.kind with
  | none => exact total_pure.early
  | some op =>
    exact advance_bind heof ((parseBitor_consumes heof (h.from (by omega))).bind fun _ =>
      span_total hm)

theorem parseAnd_consumes : Consumes inp lo (inp.parseAnd self) :=
  parseLeft_consumes heof rfl (parseCmp_consumes heof h)

theorem parseOr_consumes : Consumes inp lo (inp.parseOr self) :=
  parseLeft_consumes heof rfl (parseAnd_consumes heof h)

theorem parseRangeEnd_total {mark : Nat} (hm : mark < inp.count) (start : Option Expr)
    (op : TokenKind) : Total inp lo (inp.parseRangeEnd mark self start op) :=
  Safe.dite (fun _ => span_total hm) fun _ => Reads.bind reads_peek fun _ => Safe.ite
    (fun _ => span_total hm) fun _ => (parseOr_consumes heof h).bind fun _ => span_total hm

theorem parseRange_consumes : Consumes inp lo (inp.parseRange self) := by
  refine here_bind fun mark hlo hm => ?_
  have hrange : ∀ (start : Option Expr) (op : TokenKind) {lo' : Nat} {q : Expr → Prop},
      mark ≤ lo' → Safe inp lo' inp.live q (do
        inp.advance
        inp.parseRangeEnd mark self start op) := fun start op _ _ hlo' =>
    advance_bind heof (parseRangeEnd_total heof (h.from (by omega)) hm start op)
  have hor : Consumes inp mark (do
      let lhs ← inp.parseOr self
      let t ← inp.peek
      if isRangeOp t.kind then
        inp.advance
        inp.parseRangeEnd mark self (some lhs) t.kind
      else return lhs) := by
    refine (parseOr_consumes heof (h.from hlo)).bind fun lhs => ?_
    refine peek_bind heof (fun t _ => ?_) fun t ht => by rw [ht]; exact total_pure
    exact Safe.ite (fun _ => hrange _ _ (by omega)) fun _ => total_pure.early
  refine peek_bind heof (fun t _ => ?_) fun t ht => by rw [ht]; exact hor
  exact Safe.ite (fun _ => hrange _ _ (Nat.le_refl _)) fun _ => hor.early

end Levels

/-- Enough levels for the tokens that are left. -/
theorem exprLevel_safe : ∀ (depth lo : Nat), inp.count ≤ lo + depth →
    ExprSafe inp lo (inp.exprLevel depth)
  | 0, lo, h => ⟨fun s h1 _ h3 => by omega, fun s h1 _ h3 => by omega, fun s h1 _ h3 => by omega⟩
  | depth + 1, lo, h =>
    have hself : PastMark inp lo (inp.exprLevel depth) :=
      fun mark hlo => exprLevel_safe depth (mark + 1) (by omega)
    ⟨parseRange_consumes heof hself, parsePow_consumes heof hself,
      parseUnary_consumes heof hself⟩

theorem exprRec_safe : ExprSafe inp lo inp.exprRec :=
  exprLevel_safe heof _ lo (by rw [Input.count]; omega)

theorem parseExpr_consumes : Consumes inp lo inp.parseExpr := (exprRec_safe heof).expr

/-! ## Items -/

theorem parseParam_consumes : Consumes inp lo inp.parseParam :=
  (parsePattern_consumes heof).bind fun _ => expect_bind heof <|
    (parseClosedType_consumes heof).bind fun _ => total_pure

theorem parseFn_consumes (isPub : Bool) : Consumes inp lo (inp.parseFn isPub) := by
  refine here_bind fun mark hlo hm => expect_bind heof <|
    (parseIdent_consumes heof _).bind fun _ => expect_bind heof ?_
  refine (commaList_total heof (reads_check _) (parseParam_consumes heof)).next fun _ =>
    expect_bind heof <| optional_total heof (parseClosedType_consumes heof) fun _ => ?_
  exact (parseBlock_consumes heof (exprRec_safe heof).pastMark).bind fun _ => span_total hm

theorem parseStructField_consumes : Consumes inp lo inp.parseStructField :=
  (parseIdent_consumes heof _).bind fun _ => expect_bind heof <|
    (parseClosedType_consumes heof).bind fun _ => total_pure

theorem parseStruct_consumes (isPub : Bool) : Consumes inp lo (inp.parseStruct isPub) :=
  here_bind fun _ _ hm => expect_bind heof <| (parseIdent_consumes heof _).bind fun _ =>
    expect_bind heof <| (commaRest_total heof (parseStructField_consumes heof)).next fun _ =>
      expect_bind heof (span_total hm)

theorem parseVariant_consumes : Consumes inp lo inp.parseVariant :=
  (parseIdent_consumes heof _).bind fun _ => accept_bind heof
    ((commaList_total heof (reads_check _) (parseType_consumes heof)).next fun _ =>
      expect_bind heof total_pure) total_pure

theorem parseEnum_consumes (isPub : Bool) : Consumes inp lo (inp.parseEnum isPub) :=
  here_bind fun _ _ hm => expect_bind heof <| (parseIdent_consumes heof _).bind fun _ =>
    expect_bind heof <| (commaRest_total heof (parseVariant_consumes heof)).next fun _ =>
      expect_bind heof (span_total hm)

theorem parseImpl_consumes (isPub : Bool) : Consumes inp lo (inp.parseImpl isPub) :=
  here_bind fun _ _ hm => expect_bind heof <| (parseClosedType_consumes heof).bind fun _ =>
    expect_bind heof <| (recoverList_total heof (parseFn_consumes heof _)).next fun _ =>
      expect_bind heof (span_total hm)

theorem parseGlobal_consumes (kind : TokenKind) (what nameWhat : String) (isPub : Bool) :
    Consumes inp lo (inp.parseGlobal kind what nameWhat isPub) := by
  refine here_bind fun _ _ hm => expect_bind heof <| (parseIdent_consumes heof _).bind fun _ =>
    expect_bind heof ?_
  refine (parseClosedType_consumes heof).bind fun _ => expect_bind heof ?_
  exact (parseExpr_consumes heof).bind fun _ => span_total hm

theorem parseUse_consumes (isPub : Bool) : Consumes inp lo (inp.parseUse isPub) :=
  here_bind fun _ _ hm => expect_bind heof <| (parsePath_consumes heof).bind fun _ =>
    optional_total heof (parseIdent_consumes heof _) fun _ => expect_bind heof (span_total hm)

theorem parseMod_consumes {item : PM Item} (h : ∀ mark, lo ≤ mark → Consumes inp (mark + 1) item)
    (isPub : Bool) : Consumes inp lo (inp.parseMod item isPub) := by
  refine here_bind fun mark hlo hm => expect_bind heof <| (parseIdent_consumes heof _).bind fun _ =>
    accept_bind heof (span_total hm) <| expect_bind heof ?_
  have hitem : Consumes inp (mark + 1) (item.after mark) :=
    safe_after (h mark hlo) (Nat.le_refl _)
  exact (recoverList_total heof (hitem.from (by omega))).next fun _ =>
    expect_bind heof (span_total hm)

theorem parseItemKind_consumes {item : PM Item}
    (h : ∀ mark, lo ≤ mark → Consumes inp (mark + 1) item) (isPub : Bool) :
    Consumes inp lo (inp.parseItemKind item isPub) := by
  refine Reads.bind reads_peek fun t => ?_
  split
  · exact (parseFn_consumes heof _).map
  · exact (parseStruct_consumes heof _).map
  · exact (parseEnum_consumes heof _).map
  · exact (parseImpl_consumes heof _).map
  · exact parseMod_consumes heof h _
  · exact (parseGlobal_consumes heof _ _ _ _).map
  · exact (parseGlobal_consumes heof _ _ _ _).map
  · exact (parseUse_consumes heof _).map
  · exact (reportExpected_total _).next fun _ => safe_fail

theorem parseItemWith_consumes {item : PM Item}
    (h : ∀ mark, lo ≤ mark → Consumes inp (mark + 1) item) :
    Consumes inp lo (inp.parseItemWith item) :=
  accept_bind heof (parseItemKind_consumes heof (fun mark hm => h mark (by omega)) _).total
    (parseItemKind_consumes heof h _)

theorem itemLevel_consumes : ∀ (depth lo : Nat), inp.count ≤ lo + depth →
    Consumes inp lo (inp.itemLevel depth)
  | 0, lo, h => fun s h1 _ h3 => by omega
  | depth + 1, lo, h => parseItemWith_consumes heof fun mark hlo =>
      itemLevel_consumes depth (mark + 1) (by omega)

theorem parseItem_consumes : Consumes inp lo inp.parseItem :=
  itemLevel_consumes heof _ lo (by rw [Input.count]; omega)

/-! ## Whole files

Only the loop of `parse` is never left by a null pointer, and never before the
end of the file. -/

omit heof in
theorem bind_some {β : Type} {p : PM α} {f : α → PM β} {s s' : PState} {b : β}
    (h : (p >>= f) s = .ok (some b, s')) :
    ∃ a s1, p s = .ok (some a, s1) ∧ f a s1 = .ok (some b, s') := by
  rw [bind_run] at h
  rcases hp : p s with e | ⟨_ | a, s1⟩ <;> rw [hp] at h
  · cases h
  · cases h
  · exact ⟨a, s1, rfl, h⟩

omit heof in
/-- Never a null pointer. -/
def NonNull (p : PM α) : Prop := ∀ s s', p s ≠ .ok (none, s')

omit heof in
theorem nonNull_pure {a : α} : NonNull (pure a) := fun _ _ h => by cases h

omit heof in
theorem NonNull.bind {β : Type} {p : PM α} {f : α → PM β} (hp : NonNull p)
    (hf : ∀ a, NonNull (f a)) : NonNull (p >>= f) := by
  intro s s' h
  rw [bind_run] at h
  rcases hr : p s with e | ⟨_ | a, s1⟩ <;> rw [hr] at h
  · cases h
  · exact hp s s1 hr
  · exact hf a s1 s' h

omit heof in
theorem NonNull.ite {b : Bool} {p p' : PM α} (ht : NonNull p) (hf : NonNull p') :
    NonNull (if b then p else p') := by cases b <;> assumption

omit heof in
theorem nonNull_peek : NonNull inp.peek := fun s s' h => by
  unfold Input.peek at h; split at h <;> cases h

omit heof in
theorem nonNull_atEnd : NonNull inp.atEnd := fun s s' h => by
  unfold Input.atEnd at h; split at h <;> cases h

omit heof in
theorem nonNull_advance : NonNull inp.advance := fun s s' h => by
  unfold Input.advance at h
  split at h
  · cases h
  · split at h <;> cases h

omit heof in
theorem nonNull_check (kind : TokenKind) : NonNull (inp.check kind) :=
  nonNull_atEnd.bind fun _ => .ite nonNull_pure (nonNull_peek.bind fun _ => nonNull_pure)

omit heof in
theorem nonNull_accept (kind : TokenKind) : NonNull (inp.accept kind) :=
  (nonNull_check kind).bind fun _ =>
    .ite (nonNull_advance.bind fun _ => nonNull_pure) nonNull_pure

omit heof in
theorem nonNull_loopM {step : α → PM (α × Bool)} (hstep : ∀ acc, NonNull (step acc)) :
    ∀ (fuel : Nat) (acc : α), NonNull (loopM step fuel acc)
  | 0, _ => fun _ _ h => by cases h
  | fuel + 1, acc => by
    intro s s' h
    unfold loopM at h
    rcases hr : step acc s with e | ⟨_ | ⟨acc', _ | _⟩, s1⟩ <;> simp only [hr] at h
    · cases h
    · exact hstep acc s s1 hr
    · cases h
    · split at h
      · cases h
      · exact nonNull_loopM hstep fuel acc' s1 s' h

omit heof in
theorem nonNull_synchronizeLoop : NonNull inp.synchronizeLoop :=
  nonNull_loopM (fun _ => nonNull_atEnd.bind fun _ => .ite nonNull_pure <|
    nonNull_peek.bind fun _ => .ite nonNull_pure <| nonNull_advance.bind fun _ => nonNull_pure) _ _

omit heof in
theorem nonNull_synchronize : NonNull inp.synchronize := by
  have hhere : NonNull here := fun _ _ h => by cases h
  refine hhere.bind fun _ => nonNull_synchronizeLoop.bind fun _ => hhere.bind fun _ =>
    nonNull_atEnd.bind fun _ => .ite nonNull_pure <| nonNull_peek.bind fun _ => ?_
  exact .ite nonNull_advance (.ite nonNull_advance nonNull_pure)

omit heof in
theorem nonNull_orSynchronize {p : PM α} : NonNull (inp.orSynchronize p) := by
  have hattempt : NonNull (attempt p) := fun s s' h => by
    unfold attempt at h
    split at h <;> cases h
  refine hattempt.bind fun r => ?_
  cases r with
  | some a => exact nonNull_pure
  | none => exact nonNull_synchronize.bind fun _ => nonNull_pure

theorem itemsRound_safe (items : List Item) :
    Safe inp lo inp.count (fun r => r.2 = true) (inp.itemsRound items) :=
  atEnd_bind heof stop_safe <| accept_bind heof total_pure <|
    recover_bind heof (parseItem_consumes heof) fun r => by cases r <;> exact total_pure

omit heof in
theorem nonNull_itemsRound (items : List Item) : NonNull (inp.itemsRound items) := by
  refine nonNull_atEnd.bind fun _ => .ite nonNull_pure <| (nonNull_accept _).bind fun _ =>
    .ite nonNull_pure <| nonNull_orSynchronize.bind fun r => ?_
  cases r <;> exact nonNull_pure

omit heof in
theorem loopM_some {step : α → PM (α × Bool)} {fuel : Nat} {acc a : α} {s s' : PState}
    (h : loopM step (fuel + 1) acc s = .ok (some a, s')) :
    step acc s = .ok (some (a, false), s') ∨
      ∃ acc' u, step acc s = .ok (some (acc', true), u) ∧
        loopM step fuel acc' u = .ok (some a, s') := by
  simp only [loopM] at h
  split at h
  · cases h
  · cases h
  · next hstep => cases h; exact .inl hstep
  · next acc' u hstep =>
    split at h
    · cases h
    · exact .inr ⟨acc', u, hstep, h⟩

omit heof in
/-- A loop ends in a round that does not ask for another one. -/
theorem loopM_last {step : α → PM (α × Bool)} : ∀ (fuel : Nat) (acc a : α) (s s' : PState),
    loopM step fuel acc s = .ok (some a, s') → ∃ acc' s1, step acc' s1 = .ok (some (a, false), s')
  | 0, _, _, _, _, h => by cases h
  | fuel + 1, acc, a, s, s', h => by
    rcases loopM_some h with hstop | ⟨acc', u, -, hrest⟩
    · exact ⟨acc, s, hstop⟩
    · exact loopM_last fuel acc' a u s' hrest

/-- The loop of `parse` ends at the final token only. -/
theorem itemsRound_last {items items' : List Item} {s s' : PState} (hs : s'.pos < inp.count)
    (h : inp.itemsRound items s = .ok (some (items', false), s')) : s'.pos + 1 = inp.count := by
  obtain ⟨atEnd, s1, hend, h⟩ := bind_some h
  cases atEnd with
  | true =>
    cases h
    unfold Input.atEnd at hend
    split at hend
    · next hnone =>
      cases hend
      obtain ⟨t, ht⟩ := getElem?_of_lt hs
      rw [ht] at hnone
      cases hnone
    · next t ht =>
      simp only [Except.ok.injEq, Prod.mk.injEq, Option.some.injEq] at hend
      obtain ⟨hk, rfl⟩ := hend
      exact (heof.eof_iff _ t ht).mp (by simpa using hk)
  | false =>
    -- the other branches ask for another round
    obtain ⟨semicolon, s2, -, h⟩ := bind_some h
    cases semicolon with
    | true => cases h
    | false =>
      obtain ⟨_ | item, s3, -, h⟩ := bind_some h <;> cases h

theorem start_pos (bag : DiagBag) : (inp.start bag).pos < inp.count :=
  (skipInsignificant_pos heof heof.nonempty).2

omit heof in
/-- **The parser is total.** On any tokens that end in their only `Eof` it comes
back with a list of items, the cursor on that `Eof`, without one of the faults:
no token is read or passed outside the list, no loop goes round without consuming
one, and none of the productions is entered again before it has consumed one. -/
theorem parse_total (heof : EndsInEof inp) (bag : DiagBag) :
    ∃ items s, inp.parse bag = .ok (some items, s) ∧ s.pos + 1 = inp.tokens.length := by
  have hstart := start_pos heof bag
  have htotal : Total inp 0 inp.parseItems := loopM_total (itemsRound_safe heof)
  obtain ⟨r, s, hr, -, hlt, -⟩ := htotal (inp.start bag) (Nat.zero_le _) hstart hstart
  cases r with
  | none => exact absurd hr (nonNull_loopM nonNull_itemsRound _ _ _ _)
  | some items =>
    obtain ⟨acc, s1, hlast⟩ := loopM_last _ _ _ _ _ hr
    exact ⟨items, s, hr, itemsRound_last heof hlt hlast⟩

/-- `fn (`, where neither the name nor anything else that must follow is there. -/
def cutFn : Input :=
  ⟨[⟨.fn, ⟨0, 0, 2⟩⟩, ⟨.lParen, ⟨0, 3, 1⟩⟩] ++ [⟨.eof, ⟨0, 4, 0⟩⟩], [102, 110, 32, 40], 0⟩

omit heof in
theorem cutFn_total : ∃ items s, cutFn.parse [] = .ok (some items, s) ∧
    s.pos + 1 = cutFn.tokens.length :=
  parse_total (endsInEof_append (by decide) rfl) []

end Alcy.Parser
