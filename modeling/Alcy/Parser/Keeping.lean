import Alcy.Parser.Items
import Alcy.Parser.Safe

/-! # What every parse function keeps

A frame is a relation that the steps of the cursor, the reports, the banked brackets and the switch
of the struct literals all stay in. Then every parse function stays in it, whether it succeeds or not:
one rule for each way the source combines its functions, one theorem for each production. -/
namespace Alcy.Parser
open Alcy.Ast Alcy.Diag
open Alcy.Lexer (Token TokenKind)
open PM

/-- What the parser does to its state, step by step. -/
class Frame (R : PState → PState → Prop) : Prop where
  refl : ∀ s, R s s
  trans : ∀ {s u v}, R s u → R u v → R s v
  moves : ∀ s pos span, s.pos ≤ pos → R s { s with pos := pos, previousSpan := span }
  reports : ∀ s code span message, R s { s with bag := emit s.bag .error code span message }
  banks : ∀ s n, R s { s with bankedGt := n }
  barred : ∀ s u, R { s with allowStructLit := false } u →
    R s { u with allowStructLit := s.allowStructLit }

/-- The state a parse function starts in and the one it leaves are in the frame. -/
def Stays (R : PState → PState → Prop) {α : Type} (p : PM α) : Prop :=
  ∀ s r s', p s = .ok (r, s') → R s s'

variable {inp : Input} {R : PState → PState → Prop} [Frame R] {α β : Type} {p p' : PM α}
  {f : α → PM β} {mark : Nat}

/-! ## Combining -/

theorem Stays.pure {a : α} : Stays R (pure a : PM α) := by
  intro s r s' h
  cases h
  exact Frame.refl s

theorem Stays.fail : Stays R (PM.fail : PM α) := by
  intro s r s' h
  cases h
  exact Frame.refl s

omit [Frame R] in
theorem Stays.fault {e : Fault} : Stays R (PM.fault e : PM α) := by
  intro s r s' h
  cases h

theorem Stays.bind (hp : Stays R p) (hf : ∀ a, Stays R (f a)) : Stays R (p >>= f) := by
  intro s r s' h
  rw [bind_run] at h
  rcases hrun : p s with e | ⟨_ | a, u⟩ <;> rw [hrun] at h
  · cases h
  · cases h
    exact hp s _ _ hrun
  · exact Frame.trans (hp s (some a) u hrun) (hf a u r s' h)

theorem Stays.map {g : α → β} (hp : Stays R p) : Stays R (g <$> p) :=
  hp.bind fun _ => .pure

omit [Frame R] in
theorem Stays.ite {c : Prop} [Decidable c] (h : Stays R p) (h' : Stays R p') :
    Stays R (if c then p else p') := by
  split
  · exact h
  · exact h'

theorem Stays.here {f : Nat → PM β} (h : ∀ mark, Stays R (f mark)) : Stays R (PM.here >>= f) :=
  Stays.bind (fun s r s' hrun => by cases hrun; exact Frame.refl s) h

omit [Frame R] in
theorem Stays.after (h : Stays R p) : Stays R (p.after mark) := by
  intro s r s' hrun
  rw [PM.after] at hrun
  split at hrun
  · cases hrun
  · exact h s r s' hrun

omit [Frame R] in
theorem Stays.attempt (h : Stays R p) : Stays R (PM.attempt p) := by
  intro s r s' hrun
  rw [PM.attempt] at hrun
  split at hrun
  · cases hrun
  · next a u hp =>
    cases hrun
    exact h s _ _ hp

theorem Stays.loopM {step : α → PM (α × Bool)} (h : ∀ acc, Stays R (step acc)) :
    ∀ (fuel : Nat) (acc : α), Stays R (PM.loopM step fuel acc)
  | 0, _ => .fault
  | fuel + 1, acc => by
    intro s r s' hrun
    unfold PM.loopM at hrun
    rcases hstep : step acc s with e | ⟨_ | ⟨acc', _ | _⟩, u⟩ <;> simp only [hstep] at hrun
    · cases hrun
    · cases hrun
      exact h acc s _ _ hstep
    · cases hrun
      exact h acc s _ _ hstep
    · split at hrun
      · cases hrun
      · exact Frame.trans (h acc s _ u hstep) (Stays.loopM h fuel acc' u r s' hrun)

theorem Stays.withoutStructLit (h : Stays R p) : Stays R (PM.withoutStructLit p) := by
  intro s r s' hrun
  rw [PM.withoutStructLit] at hrun
  split at hrun
  · cases hrun
  · next a u hp =>
    cases hrun
    exact Frame.barred s _ (h _ _ _ hp)

/-! ## The cursor -/

theorem stays_bankedGt : Stays R bankedGt := by
  intro s r s' h
  cases h
  exact Frame.refl s

theorem stays_allowStructLit : Stays R allowStructLit := by
  intro s r s' h
  cases h
  exact Frame.refl s

theorem stays_bank (g : PState → Nat) : Stays R (modify fun s => { s with bankedGt := g s }) := by
  intro s r s' h
  cases h
  exact Frame.banks s (g s)

theorem stays_report (span : Span) (message : String) : Stays R (report span message) := by
  intro s r s' h
  cases h
  exact Frame.reports s _ _ _

theorem stays_peek : Stays R inp.peek := by
  intro s r s' h
  unfold Input.peek at h
  split at h
  · cases h
  · cases h
    exact Frame.refl s

theorem stays_atEnd : Stays R inp.atEnd := by
  intro s r s' h
  unfold Input.atEnd at h
  split at h
  · cases h
    exact Frame.refl s
  · cases h
    exact Frame.refl s

theorem skipFrom_stays : ∀ (tokens : List Token) (s : PState), R s (inp.skipFrom tokens s)
  | [], s => Frame.refl s
  | t :: rest, s => by
    unfold Input.skipFrom
    split
    · exact Frame.trans (Frame.moves s (s.pos + 1) s.previousSpan (Nat.le_succ _)) (skipFrom_stays rest _)
    split
    · exact Frame.trans (Frame.moves s (s.pos + 1) s.previousSpan (Nat.le_succ _))
        (Frame.trans (Frame.reports _ _ _ _) (skipFrom_stays rest _))
    · exact Frame.refl s

theorem stays_advance : Stays R inp.advance := by
  intro s r s' h
  unfold Input.advance at h
  split at h
  · cases h
  · next t _ =>
    split at h
    · cases h
    · cases h
      exact Frame.trans (Frame.moves s (s.pos + 1) t.span (Nat.le_succ _)) (skipFrom_stays _ _)

theorem stays_check (kind : TokenKind) : Stays R (inp.check kind) :=
  stays_atEnd.bind fun _ => .ite .pure (stays_peek.bind fun _ => .pure)

theorem stays_accept (kind : TokenKind) : Stays R (inp.accept kind) :=
  (stays_check kind).bind fun _ => .ite (stays_advance.bind fun _ => .pure) .pure

theorem stays_spanFrom (mark : Nat) : Stays R (inp.spanFrom mark) := by
  intro s r s' h
  unfold Input.spanFrom at h
  split at h
  · cases h
  · cases h
    exact Frame.refl s

/-- A result that is put together with its span. -/
theorem Stays.spanned {g : Span → α} : Stays R (inp.spanFrom mark >>= fun span => Pure.pure (g span)) :=
  (stays_spanFrom mark).bind fun _ => .pure

theorem stays_reportExpected (what : String) : Stays R (inp.reportExpected what) := by
  refine stays_atEnd.bind fun _ => .ite ?_ (stays_peek.bind fun _ => stays_report _ _)
  exact .here fun mark => (stays_spanFrom mark).bind fun _ => stays_report _ _

theorem stays_expect (kind : TokenKind) (what : String) : Stays R (inp.expect kind what) :=
  (stays_accept kind).bind fun _ => .ite .pure ((stays_reportExpected what).bind fun _ => .fail)

theorem stays_scanLead : Stays R inp.scanLead := by
  intro s r s' h
  cases h
  exact Frame.refl s

/-! ## Recovery and lists -/

theorem stays_synchronizeLoop : Stays R inp.synchronizeLoop :=
  .loopM (fun _ => stays_atEnd.bind fun _ => .ite .pure <| stays_peek.bind fun _ =>
    .ite .pure <| stays_advance.bind fun _ => .pure) _ _

theorem stays_synchronize : Stays R inp.synchronize := by
  refine .here fun _ => stays_synchronizeLoop.bind fun _ => .here fun _ => stays_atEnd.bind fun _ => ?_
  exact .ite .pure <| stays_peek.bind fun _ => .ite stays_advance (.ite stays_advance .pure)

theorem Stays.orSynchronize (h : Stays R p) : Stays R (inp.orSynchronize p) := by
  refine h.attempt.bind fun r => ?_
  cases r with
  | some a => exact .pure
  | none => exact stays_synchronize.bind fun _ => .pure

theorem Stays.commaList {closed : PM Bool} (hclosed : Stays R closed) (h : Stays R p) :
    Stays R (inp.commaList closed p) := by
  refine hclosed.bind fun _ => .ite .pure (.loopM (fun acc => h.bind fun _ => ?_) _ _)
  exact (stays_accept _).bind fun _ => .ite (hclosed.bind fun _ => .ite .pure .pure) .pure

theorem Stays.commaRest {close : TokenKind} {init : List α} (h : Stays R p) :
    Stays R (inp.commaRest close p init) := by
  refine .loopM (fun acc => (stays_check _).bind fun _ => stays_atEnd.bind fun _ => ?_) _ _
  exact .ite .pure (h.bind fun _ => (stays_accept _).bind fun _ => .ite .pure .pure)

/-! ## Identifiers, paths and types -/

theorem stays_parseIdent (what : String) : Stays R (inp.parseIdent what) :=
  stays_peek.bind fun _ => .ite (stays_advance.bind fun _ => .pure)
    ((stays_expect _ _).bind fun _ => .fail)

theorem stays_parsePath : Stays R inp.parsePath := by
  refine .here fun _ => .bind (.loopM (fun segments => stays_peek.bind fun t => ?_) _ _) fun _ => .spanned
  refine .ite (stays_advance.bind fun _ => (stays_accept _).bind fun _ => .ite ?_ .pure) ?_
  · exact stays_atEnd.bind fun _ => .ite ((stays_expect _ _).bind fun _ => .fail) .pure
  · exact .ite ((stays_expect _ _).bind fun _ => .fail) .pure

theorem stays_consumeGt : Stays R inp.consumeGt := by
  refine stays_bankedGt.bind fun _ => .ite ((stays_bank _).bind fun _ => .pure) ?_
  exact (stays_accept _).bind fun _ => .ite .pure <| (stays_accept _).bind fun _ =>
    .ite ((stays_bank _).bind fun _ => .pure) .pure

theorem stays_typeArgsClosed : Stays R inp.typeArgsClosed :=
  (stays_check _).bind fun _ => (stays_check _).bind fun _ => stays_atEnd.bind fun _ => .pure

theorem stays_parseParenType {type : PM Ty} (h : Stays R type) :
    Stays R (inp.parseParenType mark type) := by
  refine (stays_accept _).bind fun _ => .ite .spanned <| h.bind fun _ => (stays_accept _).bind fun _ => ?_
  exact .ite (h.commaRest.bind fun _ => (stays_expect _ _).bind fun _ => .spanned)
    ((stays_expect _ _).bind fun _ => .pure)

theorem stays_parsePathType {type : PM Ty} (h : Stays R type) :
    Stays R (inp.parsePathType mark type) := by
  refine stays_parsePath.bind fun _ => (stays_accept _).bind fun _ => .ite ?_ .spanned
  exact (stays_typeArgsClosed.commaList h).bind fun _ => stays_consumeGt.bind fun _ =>
    .ite .spanned ((stays_expect _ _).bind fun _ => .fail)

theorem stays_parseTypeWith {type : PM Ty} (h : Stays R type) : Stays R (inp.parseTypeWith type) := by
  refine .here fun mark => stays_peek.bind fun t => ?_
  split
  · exact stays_advance.bind fun _ => stays_parseParenType h.after
  · exact stays_advance.bind fun _ => .spanned
  · exact stays_advance.bind fun _ => (stays_accept _).bind fun _ => h.after.bind fun _ => .spanned
  · exact stays_advance.bind fun _ => .spanned
  · split
    · exact stays_advance.bind fun _ => .spanned
    · exact stays_parsePathType h.after

theorem stays_typeLevel : ∀ depth : Nat, Stays R (inp.typeLevel depth)
  | 0 => .fault
  | depth + 1 => stays_parseTypeWith (stays_typeLevel depth)

theorem stays_parseClosedType : Stays R inp.parseClosedType :=
  Stays.bind (stays_typeLevel _) fun _ => stays_bankedGt.bind fun _ => .ite
    ((stays_bank _).bind fun _ => (stays_expect _ _).bind fun _ => .fail) .pure

/-! ## Patterns -/

structure PatternStays (R : PState → PState → Prop) (calls : Input.PatternRec) : Prop where
  pattern : Stays R calls.pattern
  primary : Stays R calls.primary

omit [Frame R] in
theorem PatternStays.after {calls : Input.PatternRec} (h : PatternStays R calls) :
    PatternStays R (calls.after mark) := ⟨h.pattern.after, h.primary.after⟩

section
variable {calls : Input.PatternRec} (h : PatternStays R calls)
include h

theorem stays_parseParenPattern : Stays R (inp.parseParenPattern mark calls) := by
  refine h.pattern.bind fun _ => (stays_accept _).bind fun _ => .ite ?_ ?_
  · exact h.pattern.commaRest.bind fun _ => (stays_expect _ _).bind fun _ => .spanned
  · exact (stays_expect _ _).bind fun _ => .pure

theorem stays_parseFieldPattern : Stays R (inp.parseFieldPattern calls) :=
  (stays_parseIdent _).bind fun _ => (stays_accept _).bind fun _ =>
    .ite (h.pattern.bind fun _ => .pure) .pure

theorem stays_parsePathPattern (path : Path) : Stays R (inp.parsePathPattern mark calls path) := by
  refine (stays_accept _).bind fun _ => .ite ?_ <| (stays_accept _).bind fun _ => .ite ?_ .spanned
  · exact ((stays_check _).commaList h.pattern).bind fun _ => (stays_expect _ _).bind fun _ => .spanned
  · exact (stays_parseFieldPattern h).commaRest.bind fun _ => (stays_expect _ _).bind fun _ => .spanned

theorem stays_parsePrimaryPattern : Stays R (inp.parsePrimaryPattern calls) := by
  refine .here fun mark => stays_peek.bind fun t => ?_
  split
  · exact stays_advance.bind fun _ => .spanned
  · exact stays_advance.bind fun _ => (stays_parseIdent _).bind fun _ => .spanned
  · refine stays_advance.bind fun _ => stays_peek.bind fun _ => .ite ?_ (.ite ?_ ?_)
    · exact stays_advance.bind fun _ => .spanned
    · exact stays_advance.bind fun _ => .spanned
    · exact (stays_expect _ _).bind fun _ => .fail
  · exact stays_advance.bind fun _ => (stays_accept _).bind fun _ =>
      h.after.primary.bind fun _ => .spanned
  · exact stays_advance.bind fun _ => stays_parseParenPattern h.after
  · split
    · exact stays_advance.bind fun _ => .spanned
    · refine stays_parsePath.bind fun path => ?_
      split
      · exact .spanned
      · exact stays_parsePathPattern h.after path

theorem stays_parseOrPattern : Stays R (inp.parseOrPattern calls) := by
  have hprimary : Stays R (inp.parsePrimaryPattern calls) := stays_parsePrimaryPattern h
  refine .here fun _ => hprimary.bind fun _ => (stays_accept _).bind fun _ => .ite (.bind ?_ ?_) .pure
  · exact .loopM (fun acc => hprimary.bind fun _ => (stays_accept _).bind fun _ => .ite .pure .pure) _ _
  · exact fun _ => .spanned

end

theorem stays_patternLevel : ∀ depth : Nat, PatternStays R (inp.patternLevel depth)
  | 0 => ⟨.fault, .fault⟩
  | depth + 1 => ⟨stays_parseOrPattern (stays_patternLevel depth),
      stays_parsePrimaryPattern (stays_patternLevel depth)⟩

theorem stays_parsePattern : Stays R inp.parsePattern := (stays_patternLevel _).pattern

/-! ## Statements, blocks and control flow -/

structure ExprStays (R : PState → PState → Prop) (calls : ExprRec) : Prop where
  expr : Stays R calls.expr
  pow : Stays R calls.pow
  unary : Stays R calls.unary

omit [Frame R] in
theorem ExprStays.after {calls : ExprRec} (h : ExprStays R calls) :
    ExprStays R (calls.after mark) := ⟨h.expr.after, h.pow.after, h.unary.after⟩

section
variable {calls : ExprRec} (h : ExprStays R calls)
include h

theorem stays_parseStmt : Stays R (inp.parseStmt calls) := by
  refine .here fun mark => stays_scanLead.bind fun lead => ?_
  cases lead with
  | none => exact h.expr.bind fun _ => .spanned
  | decl =>
    have hrest : ∀ (pattern : Pattern) (type : Option Ty), Stays R (do
        inp.expect .colonEq "\x60:=\x60"
        let init ← calls.expr
        return Stmt.decl (← inp.spanFrom mark) pattern type init) := fun _ _ =>
      (stays_expect _ _).bind fun _ => h.expr.bind fun _ => .spanned
    exact stays_parsePattern.bind fun pattern => (stays_accept _).bind fun _ =>
      .ite (stays_parseClosedType.map.bind fun type => hrest pattern type)
        (Stays.pure.bind fun type => hrest pattern type)
  | reassign =>
    refine h.expr.bind fun _ => stays_peek.bind fun _ => .ite ?_ (.ite ?_ ?_)
    · exact stays_advance.bind fun _ => h.expr.bind fun _ => .spanned
    · exact stays_advance.bind fun _ => h.expr.bind fun _ => .spanned
    · exact (stays_expect _ _).bind fun _ => .fail

theorem stays_blockRound (acc : List Stmt × Option Expr) : Stays R (inp.blockRound calls acc) := by
  refine (stays_check _).bind fun _ => stays_atEnd.bind fun _ => .ite .pure <|
    (stays_accept _).bind fun _ => .ite .pure <| (stays_parseStmt h).orSynchronize.bind fun stmt => ?_
  cases stmt with
  | none => exact .pure
  | some stmt =>
    refine (stays_check _).bind fun _ => stays_atEnd.bind fun _ => ?_
    dsimp only
    split
    · exact .pure
    · refine (stays_accept _).bind fun _ => .ite .pure <| (stays_check _).bind fun _ =>
        stays_atEnd.bind fun _ => .ite .pure ?_
      exact stays_peek.bind fun _ => (stays_report _ _).bind fun _ => stays_synchronize.bind fun _ => .pure

theorem stays_parseBlock : Stays R (inp.parseBlock calls) :=
  .here fun _ => (stays_expect _ _).bind fun _ =>
    (Stays.loopM (fun acc => stays_blockRound h.after acc) _ _).bind fun _ =>
      (stays_expect _ _).bind fun _ => .spanned

theorem stays_parseCond : Stays R (inp.parseCond calls) := by
  have hvalue : Stays R (do return .value (← withoutStructLit calls.expr) : PM Cond) :=
    h.expr.withoutStructLit.bind fun _ => .pure
  refine stays_scanLead.bind fun lead => ?_
  cases lead with
  | decl => exact stays_parsePattern.bind fun _ => (stays_expect _ _).bind fun _ => h.expr.bind fun _ => .pure
  | reassign => exact hvalue
  | none => exact hvalue

theorem stays_parseIf : Stays R (inp.parseIf calls) := by
  refine .here fun mark => (stays_expect _ _).bind fun _ => (stays_parseCond h.after).bind fun _ =>
    (stays_parseBlock h.after).bind fun _ => (stays_accept _).bind fun _ => ?_
  exact .ite ((stays_parseBlock h.after).map.bind fun _ => .spanned) (Stays.pure.bind fun _ => .spanned)

theorem stays_parseArm : Stays R (inp.parseArm calls) :=
  stays_parsePattern.bind fun _ => (stays_expect _ _).bind fun _ => h.expr.bind fun _ => .pure

theorem stays_matchRound (acc : List MatchArm) : Stays R (inp.matchRound calls acc) := by
  refine (stays_check _).bind fun _ => stays_atEnd.bind fun _ => .ite .pure <|
    (stays_accept _).bind fun _ => .ite .pure <| (stays_accept _).bind fun _ => .ite .pure <|
      (stays_parseArm h).orSynchronize.bind fun arm => ?_
  cases arm <;> exact .pure

theorem stays_parseMatch : Stays R (inp.parseMatch calls) :=
  .here fun _ => (stays_expect _ _).bind fun _ => h.after.expr.withoutStructLit.bind fun _ =>
    (stays_expect _ _).bind fun _ =>
      (Stays.loopM (fun acc => stays_matchRound h.after acc) _ _).bind fun _ =>
        (stays_expect _ _).bind fun _ => .spanned

theorem stays_parseWhile : Stays R (inp.parseWhile calls) :=
  .here fun _ => (stays_expect _ _).bind fun _ => (stays_parseCond h.after).bind fun _ =>
    (stays_parseBlock h.after).bind fun _ => .spanned

/-! ## Primary and postfix expressions -/

theorem stays_parseArgs : Stays R (inp.parseArgs calls) :=
  ((stays_check _).commaList h.expr).bind fun _ => (stays_expect _ _).bind fun _ => .pure

theorem stays_parseParenExpr : Stays R (inp.parseParenExpr mark calls) := by
  refine h.expr.bind fun _ => (stays_accept _).bind fun _ => .ite ?_ ?_
  · exact h.expr.commaRest.bind fun _ => (stays_expect _ _).bind fun _ => .spanned
  · exact (stays_expect _ _).bind fun _ => .pure

theorem stays_parseReturn : Stays R (inp.parseReturn mark calls) :=
  (stays_check _).bind fun _ => (stays_check _).bind fun _ => stays_atEnd.bind fun _ =>
    .ite .spanned (h.expr.bind fun _ => .spanned)

theorem stays_fieldRound (acc : List FieldInit × Option Expr) : Stays R (inp.fieldRound calls acc) := by
  refine (stays_check _).bind fun _ => stays_atEnd.bind fun _ => .ite .pure <|
    (stays_accept _).bind fun _ => .ite (h.expr.bind fun _ => .pure) ?_
  exact (stays_parseIdent _).bind fun _ => (stays_expect _ _).bind fun _ => h.expr.bind fun _ =>
    (stays_accept _).bind fun _ => .ite .pure .pure

theorem stays_parseStructLit (path : Path) : Stays R (inp.parseStructLit mark calls path) := by
  refine (Stays.loopM (fun acc => stays_fieldRound h acc) _ _).bind fun (fields, base) => ?_
  have hclose : ∀ base : Option Expr, Stays R (do
      inp.expect .rBrace "\x60\x7d\x60"
      return Expr.struct (← inp.spanFrom mark) path fields base) := fun _ =>
    (stays_expect _ _).bind fun _ => .spanned
  cases base with
  | some base => exact Stays.pure.bind fun base => hclose base
  | none =>
    exact (stays_accept _).bind fun _ => .ite (h.expr.map.bind fun base => hclose base)
      (Stays.pure.bind fun base => hclose base)

theorem stays_parsePathExpr : Stays R (inp.parsePathExpr mark calls) := by
  refine stays_parsePath.bind fun path => (stays_accept _).bind fun _ => .ite ?_ (.bind ?_ fun _ => ?_)
  · exact (stays_parseArgs h).bind fun _ => .spanned
  · exact stays_allowStructLit.bind fun _ => .ite (stays_accept _) .pure
  · exact .ite (stays_parseStructLit h path) .spanned

theorem stays_parsePrimary : Stays R (inp.parsePrimary calls) := by
  refine .here fun mark => stays_peek.bind fun t => ?_
  split
  · exact stays_advance.bind fun _ => stays_parseParenExpr h.after
  · exact .here fun _ => (stays_parseBlock h).bind fun _ => .spanned
  · exact stays_parseIf h
  · exact stays_parseMatch h
  · exact .here fun _ => (stays_expect _ _).bind fun _ => (stays_parseBlock h).bind fun _ => .spanned
  · exact stays_parseWhile h
  · exact stays_advance.bind fun _ => stays_parseReturn h.after
  · exact stays_advance.bind fun _ => .spanned
  · exact stays_advance.bind fun _ => .spanned
  · split
    · exact stays_advance.bind fun _ => .spanned
    · exact stays_parsePathExpr h.after

theorem stays_parseMember (base : Expr) : Stays R (inp.parseMember mark calls base) := by
  refine stays_peek.bind fun _ => .ite (stays_advance.bind fun _ => .spanned) ?_
  exact (stays_parseIdent _).bind fun _ => (stays_accept _).bind fun _ =>
    .ite ((stays_parseArgs h).bind fun _ => .spanned) .spanned

theorem stays_postfixRound (base : Expr) : Stays R (inp.postfixRound mark calls base) := by
  refine (stays_accept _).bind fun _ => .ite ?_ <| (stays_accept _).bind fun _ => .ite ?_ <|
    (stays_accept _).bind fun _ => .ite ?_ <| (stays_accept _).bind fun _ => .ite .spanned .pure
  · exact (stays_parseArgs h).bind fun _ => .spanned
  · exact (stays_parseMember h base).bind fun _ => .pure
  · exact h.expr.bind fun _ => (stays_expect _ _).bind fun _ => .spanned

theorem stays_parsePostfix : Stays R (inp.parsePostfix calls) :=
  .here fun _ => (stays_parsePrimary h).bind fun _ =>
    .loopM (fun base => stays_postfixRound h.after base) _ _

/-! ## Operators -/

theorem stays_parseUnary : Stays R (inp.parseUnary calls) := by
  refine .here fun mark => stays_peek.bind fun t => ?_
  have hprefixed : ∀ op : UnaryOp, Stays R (do
      inp.advance
      let inner ← (calls.after mark).unary
      return Expr.unary (← inp.spanFrom mark) op inner) := fun _ =>
    stays_advance.bind fun _ => h.after.unary.bind fun _ => .spanned
  dsimp only
  split
  · exact hprefixed _
  · exact hprefixed _
  · exact hprefixed _
  · exact stays_advance.bind fun _ => (stays_accept _).bind fun _ => h.after.unary.bind fun _ => .spanned
  · exact stays_parsePostfix h

theorem stays_parsePow : Stays R (inp.parsePow calls) := by
  refine .here fun _ => .bind (.here fun _ => (stays_parseUnary h).bind fun _ =>
    (stays_accept _).bind fun _ => .ite ?_ .pure) fun _ => (stays_accept _).bind fun _ => .ite ?_ .pure
  · exact stays_parseClosedType.bind fun _ => .spanned
  · exact h.after.pow.bind fun _ => .spanned

omit h in
theorem stays_parseLeft {op : TokenKind → Option BinaryOp} {operand : PM Expr} (h : Stays R operand) :
    Stays R (inp.parseLeft op operand) := by
  refine .here fun _ => h.bind fun _ => .loopM (fun lhs => stays_peek.bind fun t => ?_) _ _
  cases op t.kind with
  | none => exact .pure
  | some op => exact stays_advance.bind fun _ => h.bind fun _ => .spanned

theorem stays_parseMul : Stays R (inp.parseMul calls) := stays_parseLeft (stays_parsePow h)

theorem stays_parseAdd : Stays R (inp.parseAdd calls) := stays_parseLeft (stays_parseMul h)

theorem stays_parseShift : Stays R (inp.parseShift calls) := stays_parseLeft (stays_parseAdd h)

theorem stays_parseBitand : Stays R (inp.parseBitand calls) := stays_parseLeft (stays_parseShift h)

theorem stays_parseBitxor : Stays R (inp.parseBitxor calls) := stays_parseLeft (stays_parseBitand h)

theorem stays_parseBitor : Stays R (inp.parseBitor calls) := stays_parseLeft (stays_parseBitxor h)

theorem stays_parseCmp : Stays R (inp.parseCmp calls) := by
  refine .here fun _ => (stays_parseBitor h).bind fun _ => stays_peek.bind fun t => ?_
  cases Input.cmpOp t.kind with
  | none => exact .pure
  | some op => exact stays_advance.bind fun _ => (stays_parseBitor h).bind fun _ => .spanned

theorem stays_parseAnd : Stays R (inp.parseAnd calls) := stays_parseLeft (stays_parseCmp h)

theorem stays_parseOr : Stays R (inp.parseOr calls) := stays_parseLeft (stays_parseAnd h)

theorem stays_parseRangeEnd (start : Option Expr) (op : TokenKind) :
    Stays R (inp.parseRangeEnd mark calls start op) :=
  .ite .spanned (stays_peek.bind fun _ => .ite .spanned ((stays_parseOr h).bind fun _ => .spanned))

theorem stays_parseRange : Stays R (inp.parseRange calls) := by
  refine .here fun mark => stays_peek.bind fun _ =>
    .ite (stays_advance.bind fun _ => stays_parseRangeEnd h _ _) ?_
  exact (stays_parseOr h).bind fun _ => stays_peek.bind fun _ =>
    .ite (stays_advance.bind fun _ => stays_parseRangeEnd h _ _) .pure

end

theorem stays_exprLevel : ∀ depth : Nat, ExprStays R (inp.exprLevel depth)
  | 0 => ⟨.fault, .fault, .fault⟩
  | depth + 1 =>
    have h := stays_exprLevel depth
    ⟨stays_parseRange h, stays_parsePow h, stays_parseUnary h⟩

theorem stays_exprRec : ExprStays R inp.exprRec := stays_exprLevel _

/-! ## The cursor, the mode and the bag -/

/-- The cursor does not go back. -/
def Forward (s s' : PState) : Prop := s.pos ≤ s'.pos

/-- Struct literals are allowed as they were. -/
def SameMode (s s' : PState) : Prop := s'.allowStructLit = s.allowStructLit

/-- Nothing that was reported is lost. -/
def BagGrows (s s' : PState) : Prop := s.bag <+: s'.bag

instance : Frame Forward where
  refl s := Nat.le_refl s.pos
  trans h h' := Nat.le_trans h h'
  moves _ _ _ h := h
  reports s _ _ _ := Nat.le_refl s.pos
  banks s _ := Nat.le_refl s.pos
  barred _ _ h := h

instance : Frame SameMode where
  refl _ := rfl
  trans h h' := h'.trans h
  moves _ _ _ _ := rfl
  reports _ _ _ _ := rfl
  banks _ _ := rfl
  barred _ _ _ := rfl

instance : Frame BagGrows where
  refl s := List.prefix_refl s.bag
  trans h h' := h.trans h'
  moves s _ _ _ := List.prefix_refl s.bag
  reports s _ _ _ := List.prefix_append s.bag _
  banks s _ := List.prefix_refl s.bag
  barred _ _ h := h

end Alcy.Parser
