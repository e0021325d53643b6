import Alcy.Parser.Plain
import Alcy.Parser.Keeping

/-! # Trees without struct literals

While struct literals are not allowed the parser makes none: the flag stays off until the parse
function that turned it off is left, whatever brackets are opened in between. -/
namespace Alcy.Ast

mutual

/-- No struct literal anywhere in it. -/
def Expr.bare : Expr → Bool
  | .literal _ _ => true
  | .path _ _ => true
  | .struct _ _ _ _ => false
  | .tuple _ elements => Expr.bareAll elements
  | .unary _ _ inner => inner.bare
  | .borrow _ _ inner => inner.bare
  | .binary _ _ lhs rhs => lhs.bare && rhs.bare
  | .cast _ inner _ => inner.bare
  | .call _ callee args => callee.bare && Expr.bareAll args
  | .methodCall _ receiver _ args => receiver.bare && Expr.bareAll args
  | .field _ receiver _ => receiver.bare
  | .index _ receiver place => receiver.bare && place.bare
  | .question _ inner => inner.bare
  | .ifExpr _ cond thenBlock elseBlock => cond.bare && thenBlock.bare && Block.bareOption elseBlock
  | .matchExpr _ scrutinee arms => scrutinee.bare && MatchArm.bareAll arms
  | .loop _ body => body.bare
  | .whileExpr _ cond body => cond.bare && body.bare
  | .block _ body => body.bare
  | .returnExpr _ value => Expr.bareOption value
  | .breakExpr _ => true
  | .continueExpr _ => true
  | .range _ start stop _ => Expr.bareOption start && Expr.bareOption stop

def Expr.bareAll : List Expr → Bool
  | [] => true
  | expr :: exprs => expr.bare && Expr.bareAll exprs

def Expr.bareOption : Option Expr → Bool
  | none => true
  | some expr => expr.bare

def Cond.bare : Cond → Bool
  | .pattern _ init => init.bare
  | .value inner => inner.bare

def MatchArm.bare : MatchArm → Bool
  | .mk _ body => body.bare

def MatchArm.bareAll : List MatchArm → Bool
  | [] => true
  | arm :: arms => arm.bare && MatchArm.bareAll arms

def Block.bare : Block → Bool
  | .mk _ statements value => Stmt.bareAll statements && Expr.bareOption value

def Block.bareOption : Option Block → Bool
  | none => true
  | some block => block.bare

def Stmt.bare : Stmt → Bool
  | .decl _ _ _ init => init.bare
  | .reassign _ place _ _ value => place.bare && value.bare
  | .expr _ value => value.bare

def Stmt.bareAll : List Stmt → Bool
  | [] => true
  | stmt :: stmts => stmt.bare && Stmt.bareAll stmts

end

theorem Expr.bareAll_iff {exprs : List Expr} : Expr.bareAll exprs = true ↔ ∀ e ∈ exprs, e.bare = true := by
  induction exprs with
  | nil => exact ⟨fun _ _ he => (List.not_mem_nil he).elim, fun _ => rfl⟩
  | cons expr exprs ih => rw [Expr.bareAll, Bool.and_eq_true, ih, List.forall_mem_cons]

theorem MatchArm.bareAll_iff {arms : List MatchArm} :
    MatchArm.bareAll arms = true ↔ ∀ arm ∈ arms, arm.bare = true := by
  induction arms with
  | nil => exact ⟨fun _ _ harm => (List.not_mem_nil harm).elim, fun _ => rfl⟩
  | cons arm arms ih => rw [MatchArm.bareAll, Bool.and_eq_true, ih, List.forall_mem_cons]

theorem Stmt.bareAll_iff {stmts : List Stmt} :
    Stmt.bareAll stmts = true ↔ ∀ stmt ∈ stmts, stmt.bare = true := by
  induction stmts with
  | nil => exact ⟨fun _ _ hstmt => (List.not_mem_nil hstmt).elim, fun _ => rfl⟩
  | cons stmt stmts ih => rw [Stmt.bareAll, Bool.and_eq_true, ih, List.forall_mem_cons]

/-! Spans do not matter. -/

mutual

theorem Expr.bare_plain : ∀ e : Expr, e.plain.bare = e.bare
  | .literal _ _ => rfl
  | .path _ _ => rfl
  | .struct _ _ _ _ => rfl
  | .tuple _ elements => Expr.bareAll_plainAll elements
  | .unary _ _ inner => inner.bare_plain
  | .borrow _ _ inner => inner.bare_plain
  | .binary _ _ lhs rhs => congrArg₂ and lhs.bare_plain rhs.bare_plain
  | .cast _ inner _ => inner.bare_plain
  | .call _ callee args => congrArg₂ and callee.bare_plain (Expr.bareAll_plainAll args)
  | .methodCall _ receiver _ args => congrArg₂ and receiver.bare_plain (Expr.bareAll_plainAll args)
  | .field _ receiver _ => receiver.bare_plain
  | .index _ receiver place => congrArg₂ and receiver.bare_plain place.bare_plain
  | .question _ inner => inner.bare_plain
  | .ifExpr _ cond thenBlock elseBlock => congrArg₂ and
      (congrArg₂ and cond.bare_plain thenBlock.bare_plain) (Block.bareOption_plainOption elseBlock)
  | .matchExpr _ scrutinee arms => congrArg₂ and scrutinee.bare_plain (MatchArm.bareAll_plainAll arms)
  | .loop _ body => body.bare_plain
  | .whileExpr _ cond body => congrArg₂ and cond.bare_plain body.bare_plain
  | .block _ body => body.bare_plain
  | .returnExpr _ value => Expr.bareOption_plainOption value
  | .breakExpr _ => rfl
  | .continueExpr _ => rfl
  | .range _ start stop _ =>
    congrArg₂ and (Expr.bareOption_plainOption start) (Expr.bareOption_plainOption stop)

theorem Expr.bareAll_plainAll : ∀ es : List Expr, Expr.bareAll (Expr.plainAll es) = Expr.bareAll es
  | [] => rfl
  | e :: es => congrArg₂ and e.bare_plain (Expr.bareAll_plainAll es)

theorem Expr.bareOption_plainOption :
    ∀ e : Option Expr, Expr.bareOption (Expr.plainOption e) = Expr.bareOption e
  | none => rfl
  | some e => e.bare_plain

theorem Cond.bare_plain : ∀ cond : Cond, cond.plain.bare = cond.bare
  | .pattern _ init => init.bare_plain
  | .value inner => inner.bare_plain

theorem MatchArm.bare_plain : ∀ arm : MatchArm, arm.plain.bare = arm.bare
  | .mk _ body => body.bare_plain

theorem MatchArm.bareAll_plainAll :
    ∀ arms : List MatchArm, MatchArm.bareAll (MatchArm.plainAll arms) = MatchArm.bareAll arms
  | [] => rfl
  | arm :: arms => congrArg₂ and arm.bare_plain (MatchArm.bareAll_plainAll arms)

theorem Block.bare_plain : ∀ block : Block, block.plain.bare = block.bare
  | .mk _ statements value =>
    congrArg₂ and (Stmt.bareAll_plainAll statements) (Expr.bareOption_plainOption value)

theorem Block.bareOption_plainOption :
    ∀ block : Option Block, Block.bareOption (Block.plainOption block) = Block.bareOption block
  | none => rfl
  | some block => block.bare_plain

theorem Stmt.bare_plain : ∀ stmt : Stmt, stmt.plain.bare = stmt.bare
  | .decl _ _ _ init => init.bare_plain
  | .reassign _ place _ _ value => congrArg₂ and place.bare_plain value.bare_plain
  | .expr _ value => value.bare_plain

theorem Stmt.bareAll_plainAll :
    ∀ stmts : List Stmt, Stmt.bareAll (Stmt.plainAll stmts) = Stmt.bareAll stmts
  | [] => rfl
  | stmt :: stmts => congrArg₂ and stmt.bare_plain (Stmt.bareAll_plainAll stmts)

end

end Alcy.Ast

namespace Alcy.Parser
open Alcy.Ast Alcy.Diag
open Alcy.Lexer (Token TokenKind)
open PM

/-- Started without struct literals, it ends without them, and `Q` holds of what it returns. -/
def Barred {α : Type} (Q : α → Prop) (p : PM α) : Prop :=
  ∀ s r s', s.allowStructLit = false → p s = .ok (r, s') →
    s'.allowStructLit = false ∧ ∀ a, r = some a → Q a

variable {inp : Input} {α β : Type} {p p' : PM α} {f : α → PM β} {Q Q' : α → Prop} {T : β → Prop}
  {mark : Nat}

/-! ## Combining -/

theorem Stays.barred (h : Stays SameMode p) : Barred (fun _ => True) p := by
  intro s r s' hs hrun
  exact ⟨(h s r s' hrun).trans hs, fun _ _ => trivial⟩

theorem Barred.weaken (h : Barred Q p) (hQ : ∀ a, Q a → Q' a) : Barred Q' p := by
  intro s r s' hs hrun
  obtain ⟨hs', ha⟩ := h s r s' hs hrun
  exact ⟨hs', fun a hr => hQ a (ha a hr)⟩

theorem Barred.pure {a : α} (h : Q a) : Barred Q (pure a : PM α) := by
  intro s r s' hs hrun
  cases hrun
  refine ⟨hs, fun b hb => ?_⟩
  cases hb
  exact h

theorem Barred.fail : Barred Q (PM.fail : PM α) := by
  intro s r s' hs hrun
  cases hrun
  exact ⟨hs, fun _ h => nomatch h⟩

theorem Barred.fault {e : Fault} : Barred Q (PM.fault e : PM α) := by
  intro s r s' _ hrun
  cases hrun

theorem Barred.bind (hp : Barred Q p) (hf : ∀ a, Q a → Barred T (f a)) : Barred T (p >>= f) := by
  intro s r s' hs hrun
  rw [bind_run] at hrun
  rcases hp' : p s with e | ⟨_ | a, u⟩ <;> rw [hp'] at hrun
  · cases hrun
  · cases hrun
    exact ⟨(hp s _ _ hs hp').1, fun _ h => nomatch h⟩
  · obtain ⟨hu, ha⟩ := hp s _ _ hs hp'
    exact hf a (ha a rfl) u r s' hu hrun

/-- A step whose result does not matter. -/
theorem Stays.then (hp : Stays SameMode p) (hf : ∀ a, Barred T (f a)) : Barred T (p >>= f) :=
  hp.barred.bind fun a _ => hf a

theorem Barred.map {g : α → β} (hp : Barred Q p) (hg : ∀ a, Q a → T (g a)) : Barred T (g <$> p) :=
  hp.bind fun a ha => .pure (hg a ha)

theorem Barred.ite {c : Prop} [Decidable c] (h : Barred Q p) (h' : Barred Q p') :
    Barred Q (if c then p else p') := by
  split
  · exact h
  · exact h'

theorem Barred.here {f : Nat → PM β} (h : ∀ mark, Barred T (f mark)) : Barred T (PM.here >>= f) :=
  Barred.bind (Q := fun _ => True)
    (fun s r s' hs hrun => by cases hrun; exact ⟨hs, fun _ _ => trivial⟩) fun mark _ => h mark

theorem Barred.after (h : Barred Q p) : Barred Q (p.after mark) := by
  intro s r s' hs hrun
  rw [PM.after] at hrun
  split at hrun
  · cases hrun
  · exact h s r s' hs hrun

theorem Barred.loopM {step : α → PM (α × Bool)} (h : ∀ acc, Q acc → Barred (fun r => Q r.1) (step acc)) :
    ∀ (fuel : Nat) (acc : α), Q acc → Barred Q (PM.loopM step fuel acc)
  | 0, _, _ => .fault
  | fuel + 1, acc, hacc => by
    intro s r s' hs hrun
    unfold PM.loopM at hrun
    rcases hstep : step acc s with e | ⟨_ | ⟨acc', _ | _⟩, u⟩ <;> simp only [hstep] at hrun
    · cases hrun
    · cases hrun
      exact ⟨(h acc hacc s _ _ hs hstep).1, fun a hnone => absurd hnone.symm (Option.some_ne_none a)⟩
    · cases hrun
      obtain ⟨hu, ha⟩ := h acc hacc s _ _ hs hstep
      refine ⟨hu, fun a hr => ?_⟩
      cases hr
      exact ha _ rfl
    · split at hrun
      · cases hrun
      · obtain ⟨hu, ha⟩ := h acc hacc s _ _ hs hstep
        exact Barred.loopM h fuel acc' (ha _ rfl) u r s' hu hrun

theorem Barred.withoutStructLit (h : Barred Q p) : Barred Q (PM.withoutStructLit p) := by
  intro s r s' hs hrun
  rw [PM.withoutStructLit] at hrun
  split at hrun
  · cases hrun
  · next a u hp =>
    cases hrun
    exact ⟨hs, (h _ _ _ rfl hp).2⟩

/-- Turning struct literals off is enough. -/
theorem Barred.off (h : Barred Q p) {s s' : PState} {a : α}
    (hrun : PM.withoutStructLit p s = .ok (some a, s')) : Q a := by
  rw [PM.withoutStructLit] at hrun
  split at hrun
  · cases hrun
  · next r u hp =>
    cases hrun
    exact (h _ _ _ rfl hp).2 a rfl

theorem Barred.spanned {g : Span → α} (h : ∀ span, Q (g span)) :
    Barred Q (inp.spanFrom mark >>= fun span => Pure.pure (g span)) :=
  (stays_spanFrom mark).then fun span => .pure (h span)

theorem Barred.orSynchronize (h : Barred Q p) : Barred (fun r => ∀ a, r = some a → Q a)
    (inp.orSynchronize p) := by
  have hattempt : Barred (fun r => ∀ a, r = some a → Q a) (PM.attempt p) := by
    intro s r s' hs hrun
    rw [PM.attempt] at hrun
    split at hrun
    · cases hrun
    · next r' u hp =>
      cases hrun
      obtain ⟨hu, ha⟩ := h _ _ _ hs hp
      refine ⟨hu, fun a hr => ?_⟩
      cases hr
      exact ha
  refine hattempt.bind fun r hr => ?_
  cases r with
  | some a => exact .pure hr
  | none =>
    exact stays_synchronize.then fun _ => .pure fun a h => absurd h.symm (Option.some_ne_none a)

theorem Barred.commaList {closed : PM Bool} (hclosed : Stays SameMode closed) (h : Barred Q p) :
    Barred (fun items => ∀ item ∈ items, Q item) (inp.commaList closed p) := by
  have hnil : ∀ item ∈ ([] : List α), Q item := fun _ h => (List.not_mem_nil h).elim
  refine hclosed.then fun _ => .ite (.pure hnil) (.loopM (fun acc hacc => ?_) _ _ hnil)
  refine h.bind fun item hitem => ?_
  have hmore : ∀ x ∈ acc ++ [item], Q x := List.forall_mem_append.2 ⟨hacc, List.forall_mem_singleton.2 hitem⟩
  exact (stays_accept _).then fun _ =>
    .ite (hclosed.then fun _ => .ite (.pure hmore) (.pure hmore)) (.pure hmore)

theorem Barred.commaRest {close : TokenKind} {init : List α} (h : Barred Q p)
    (hinit : ∀ item ∈ init, Q item) :
    Barred (fun items => ∀ item ∈ items, Q item) (inp.commaRest close p init) := by
  refine .loopM (fun acc hacc => (stays_check _).then fun _ => stays_atEnd.then fun _ => ?_) _ _ hinit
  refine .ite (.pure hacc) (h.bind fun item hitem => ?_)
  have hmore : ∀ x ∈ acc ++ [item], Q x := List.forall_mem_append.2 ⟨hacc, List.forall_mem_singleton.2 hitem⟩
  exact (stays_accept _).then fun _ => .ite (.pure hmore) (.pure hmore)

/-! ## Statements, blocks and control flow -/

structure ExprBarred (calls : ExprRec) : Prop where
  expr : Barred (fun e => e.bare = true) calls.expr
  pow : Barred (fun e => e.bare = true) calls.pow
  unary : Barred (fun e => e.bare = true) calls.unary

theorem ExprBarred.after {calls : ExprRec} (h : ExprBarred calls) : ExprBarred (calls.after mark) :=
  ⟨h.expr.after, h.pow.after, h.unary.after⟩

/-- The statements of a block so far, and its value. -/
def BareBody (acc : List Stmt × Option Expr) : Prop :=
  (∀ stmt ∈ acc.1, stmt.bare = true) ∧ Expr.bareOption acc.2 = true

section
variable {calls : ExprRec} (h : ExprBarred calls)
include h

theorem barred_parseStmt : Barred (fun stmt => stmt.bare = true) (inp.parseStmt calls) := by
  refine .here fun mark => stays_scanLead.then fun lead => ?_
  cases lead with
  | none => exact h.expr.bind fun _ hvalue => .spanned fun _ => hvalue
  | decl =>
    have hrest : ∀ (pattern : Pattern) (type : Option Ty), Barred (fun stmt => stmt.bare = true) (do
        inp.expect .colonEq "\x60:=\x60"
        let init ← calls.expr
        return Stmt.decl (← inp.spanFrom mark) pattern type init) := fun _ _ =>
      (stays_expect _ _).then fun _ => h.expr.bind fun _ hinit => .spanned fun _ => hinit
    exact stays_parsePattern.then fun pattern => (stays_accept _).then fun _ =>
      .ite (stays_parseClosedType.map.then fun type => hrest pattern type)
        (Stays.pure.then fun type => hrest pattern type)
  | reassign =>
    refine h.expr.bind fun _ hplace => stays_peek.then fun _ => .ite ?_ (.ite ?_ ?_)
    · exact stays_advance.then fun _ => h.expr.bind fun _ hvalue =>
        .spanned fun _ => Bool.and_eq_true_iff.2 ⟨hplace, hvalue⟩
    · exact stays_advance.then fun _ => h.expr.bind fun _ hvalue =>
        .spanned fun _ => Bool.and_eq_true_iff.2 ⟨hplace, hvalue⟩
    · exact (stays_expect _ _).then fun _ => .fail

theorem barred_blockRound (acc : List Stmt × Option Expr) (hacc : BareBody acc) :
    Barred (fun r => BareBody r.1) (inp.blockRound calls acc) := by
  refine (stays_check _).then fun _ => stays_atEnd.then fun _ => .ite (.pure hacc) <|
    (stays_accept _).then fun _ => .ite (.pure hacc) <|
      (barred_parseStmt h).orSynchronize.bind fun stmt hstmt => ?_
  cases stmt with
  | none => exact .pure hacc
  | some stmt =>
    have hmore : BareBody (acc.1 ++ [stmt], acc.2) :=
      ⟨List.forall_mem_append.2 ⟨hacc.1, List.forall_mem_singleton.2 (hstmt stmt rfl)⟩, hacc.2⟩
    refine (stays_check _).then fun _ => stays_atEnd.then fun _ => ?_
    dsimp only
    split
    · exact .pure ⟨hacc.1, hstmt _ rfl⟩
    · refine (stays_accept _).then fun _ => .ite (.pure hmore) <| (stays_check _).then fun _ =>
        stays_atEnd.then fun _ => .ite (.pure hmore) ?_
      exact stays_peek.then fun _ => (stays_report _ _).then fun _ => stays_synchronize.then fun _ =>
        .pure hmore

theorem barred_parseBlock : Barred (fun block => block.bare = true) (inp.parseBlock calls) := by
  have hnil : BareBody ([], none) := ⟨fun _ h => (List.not_mem_nil h).elim, rfl⟩
  refine .here fun _ => (stays_expect _ _).then fun _ =>
    (Barred.loopM (fun acc hacc => barred_blockRound h.after acc hacc) _ _ hnil).bind fun body hbody => ?_
  exact (stays_expect _ _).then fun _ => .spanned fun _ =>
    Bool.and_eq_true_iff.2 ⟨Stmt.bareAll_iff.2 hbody.1, hbody.2⟩

theorem barred_parseCond : Barred (fun cond => cond.bare = true) (inp.parseCond calls) := by
  have hvalue : Barred (fun cond => cond.bare = true)
      (do return .value (← withoutStructLit calls.expr) : PM Cond) :=
    h.expr.withoutStructLit.bind fun _ hvalue => .pure hvalue
  refine stays_scanLead.then fun lead => ?_
  cases lead with
  | decl =>
    exact stays_parsePattern.then fun _ => (stays_expect _ _).then fun _ =>
      h.expr.bind fun _ hinit => .pure hinit
  | reassign => exact hvalue
  | none => exact hvalue

theorem barred_parseIf : Barred (fun e => e.bare = true) (inp.parseIf calls) := by
  refine .here fun mark => (stays_expect _ _).then fun _ => (barred_parseCond h.after).bind fun _ hcond =>
    (barred_parseBlock h.after).bind fun _ hthen => (stays_accept _).then fun _ => ?_
  have hrest : ∀ p : PM (Option Block), Barred (fun block => Block.bareOption block = true) p →
      Barred (fun e => e.bare = true) (do
        let elseBlock ← p
        return Expr.ifExpr (← inp.spanFrom mark) _ _ elseBlock) := fun p hp =>
    hp.bind fun _ helse => .spanned fun _ =>
      Bool.and_eq_true_iff.2 ⟨Bool.and_eq_true_iff.2 ⟨hcond, hthen⟩, helse⟩
  exact .ite (hrest _ ((barred_parseBlock h.after).map fun _ hblock => hblock)) (hrest _ (.pure rfl))

theorem barred_parseArm : Barred (fun arm => arm.bare = true) (inp.parseArm calls) :=
  stays_parsePattern.then fun _ => (stays_expect _ _).then fun _ => h.expr.bind fun _ hbody => .pure hbody

theorem barred_matchRound (acc : List MatchArm) (hacc : ∀ arm ∈ acc, arm.bare = true) :
    Barred (fun r => ∀ arm ∈ r.1, arm.bare = true) (inp.matchRound calls acc) := by
  refine (stays_check _).then fun _ => stays_atEnd.then fun _ => .ite (.pure hacc) <|
    (stays_accept _).then fun _ => .ite (.pure hacc) <| (stays_accept _).then fun _ =>
      .ite (.pure hacc) <| (barred_parseArm h).orSynchronize.bind fun arm harm => ?_
  cases arm with
  | none => exact .pure hacc
  | some arm =>
    exact .pure (List.forall_mem_append.2 ⟨hacc, List.forall_mem_singleton.2 (harm arm rfl)⟩)

theorem barred_parseMatch : Barred (fun e => e.bare = true) (inp.parseMatch calls) := by
  have hnil : ∀ arm ∈ ([] : List MatchArm), arm.bare = true := fun _ h => (List.not_mem_nil h).elim
  refine .here fun _ => (stays_expect _ _).then fun _ => h.after.expr.withoutStructLit.bind
    fun _ hscrutinee => (stays_expect _ _).then fun _ => ?_
  refine (Barred.loopM (fun acc hacc => barred_matchRound h.after acc hacc) _ _ hnil).bind fun _ harms => ?_
  exact (stays_expect _ _).then fun _ => .spanned fun _ =>
    Bool.and_eq_true_iff.2 ⟨hscrutinee, MatchArm.bareAll_iff.2 harms⟩

theorem barred_parseWhile : Barred (fun e => e.bare = true) (inp.parseWhile calls) :=
  .here fun _ => (stays_expect _ _).then fun _ => (barred_parseCond h.after).bind fun _ hcond =>
    (barred_parseBlock h.after).bind fun _ hbody =>
      .spanned fun _ => Bool.and_eq_true_iff.2 ⟨hcond, hbody⟩

/-! ## Primary and postfix expressions -/

theorem barred_parseArgs : Barred (fun args => Expr.bareAll args = true) (inp.parseArgs calls) :=
  (h.expr.commaList (stays_check _)).bind fun _ hargs => (stays_expect _ _).then fun _ =>
    .pure (Expr.bareAll_iff.2 hargs)

theorem barred_parseParenExpr : Barred (fun e => e.bare = true) (inp.parseParenExpr mark calls) := by
  refine h.expr.bind fun first hfirst => (stays_accept _).then fun _ => .ite ?_ ?_
  · refine (h.expr.commaRest (List.forall_mem_singleton.2 hfirst)).bind fun _ helements => ?_
    exact (stays_expect _ _).then fun _ => .spanned fun _ => Expr.bareAll_iff.2 helements
  · exact (stays_expect _ _).then fun _ => .pure hfirst

theorem barred_parseReturn : Barred (fun e => e.bare = true) (inp.parseReturn mark calls) :=
  (stays_check _).then fun _ => (stays_check _).then fun _ => stays_atEnd.then fun _ =>
    .ite (.spanned fun _ => rfl) (h.expr.bind fun _ hvalue => .spanned fun _ => hvalue)

/-- The flag is off, so that the brace is left alone. -/
theorem barred_parsePathExpr : Barred (fun e => e.bare = true) (inp.parsePathExpr mark calls) := by
  refine stays_parsePath.then fun path => (stays_accept _).then fun _ => .ite ?_ ?_
  · exact (barred_parseArgs h).bind fun _ hargs => .spanned fun _ => hargs
  · intro s r s' hs hrun
    have hstruct : inp.acceptStructLit s = .ok (some false, s) := by
      rw [Input.acceptStructLit, bind_run]
      change (if s.allowStructLit then inp.accept .lBrace else pure false) s = _
      rw [hs]
      rfl
    rw [bind_run, hstruct] at hrun
    exact Barred.spanned (Q := fun e => e.bare = true) (g := fun span => Expr.path span path)
      (fun _ => rfl) s r s' hs hrun

theorem barred_parsePrimary : Barred (fun e => e.bare = true) (inp.parsePrimary calls) := by
  refine .here fun mark => stays_peek.then fun t => ?_
  split
  · exact stays_advance.then fun _ => barred_parseParenExpr h.after
  · exact .here fun _ => (barred_parseBlock h).bind fun _ hblock => .spanned fun _ => hblock
  · exact barred_parseIf h
  · exact barred_parseMatch h
  · exact .here fun _ => (stays_expect _ _).then fun _ => (barred_parseBlock h).bind fun _ hbody =>
      .spanned fun _ => hbody
  · exact barred_parseWhile h
  · exact stays_advance.then fun _ => barred_parseReturn h.after
  · exact stays_advance.then fun _ => .spanned fun _ => rfl
  · exact stays_advance.then fun _ => .spanned fun _ => rfl
  · split
    · exact stays_advance.then fun _ => .spanned fun _ => rfl
    · exact barred_parsePathExpr h.after

theorem barred_parseMember (base : Expr) (hbase : base.bare = true) :
    Barred (fun e => e.bare = true) (inp.parseMember mark calls base) := by
  refine stays_peek.then fun _ => .ite (stays_advance.then fun _ => .spanned fun _ => hbase) ?_
  exact (stays_parseIdent _).then fun _ => (stays_accept _).then fun _ =>
    .ite ((barred_parseArgs h).bind fun _ hargs => .spanned fun _ => Bool.and_eq_true_iff.2 ⟨hbase, hargs⟩)
      (.spanned fun _ => hbase)

theorem barred_postfixRound (base : Expr) (hbase : base.bare = true) :
    Barred (fun r => r.1.bare = true) (inp.postfixRound mark calls base) := by
  refine (stays_accept _).then fun _ => .ite ?_ <| (stays_accept _).then fun _ => .ite ?_ <|
    (stays_accept _).then fun _ => .ite ?_ <| (stays_accept _).then fun _ =>
      .ite (.spanned fun _ => hbase) (.pure hbase)
  · exact (barred_parseArgs h).bind fun _ hargs => .spanned fun _ => Bool.and_eq_true_iff.2 ⟨hbase, hargs⟩
  · exact (barred_parseMember h base hbase).bind fun _ hmember => .pure hmember
  · exact h.expr.bind fun _ hplace => (stays_expect _ _).then fun _ =>
      .spanned fun _ => Bool.and_eq_true_iff.2 ⟨hbase, hplace⟩

theorem barred_parsePostfix : Barred (fun e => e.bare = true) (inp.parsePostfix calls) :=
  .here fun _ => (barred_parsePrimary h).bind fun _ hbase =>
    .loopM (fun base hbase => barred_postfixRound h.after base hbase) _ _ hbase

/-! ## Operators -/

theorem barred_parseUnary : Barred (fun e => e.bare = true) (inp.parseUnary calls) := by
  refine .here fun mark => stays_peek.then fun t => ?_
  have hprefixed : ∀ op : UnaryOp, Barred (fun e => e.bare = true) (do
      inp.advance
      let inner ← (calls.after mark).unary
      return Expr.unary (← inp.spanFrom mark) op inner) := fun _ =>
    stays_advance.then fun _ => h.after.unary.bind fun _ hinner => .spanned fun _ => hinner
  dsimp only
  split
  · exact hprefixed _
  · exact hprefixed _
  · exact hprefixed _
  · exact stays_advance.then fun _ => (stays_accept _).then fun _ =>
      h.after.unary.bind fun _ hinner => .spanned fun _ => hinner
  · exact barred_parsePostfix h

theorem barred_parsePow : Barred (fun e => e.bare = true) (inp.parsePow calls) := by
  refine .here fun _ => .bind (Q := fun e => e.bare = true) (.here fun _ => (barred_parseUnary h).bind
    fun inner hinner => (stays_accept _).then fun _ => .ite ?_ (.pure hinner))
    fun lhs hlhs => (stays_accept _).then fun _ => .ite ?_ (.pure hlhs)
  · exact stays_parseClosedType.then fun _ => .spanned fun _ => hinner
  · exact h.after.pow.bind fun _ hrhs => .spanned fun _ => Bool.and_eq_true_iff.2 ⟨hlhs, hrhs⟩

omit h in
theorem barred_parseLeft {op : TokenKind → Option BinaryOp} {operand : PM Expr}
    (h : Barred (fun e => e.bare = true) operand) :
    Barred (fun e => e.bare = true) (inp.parseLeft op operand) := by
  refine .here fun _ => h.bind fun lhs hlhs =>
    .loopM (fun lhs hlhs => stays_peek.then fun t => ?_) _ _ hlhs
  cases op t.kind with
  | none => exact .pure hlhs
  | some op =>
    exact stays_advance.then fun _ => h.bind fun _ hrhs =>
      .spanned fun _ => Bool.and_eq_true_iff.2 ⟨hlhs, hrhs⟩

theorem barred_parseBitor : Barred (fun e => e.bare = true) (inp.parseBitor calls) :=
  barred_parseLeft <| barred_parseLeft <| barred_parseLeft <| barred_parseLeft <| barred_parseLeft <|
    barred_parseLeft <| barred_parsePow h

theorem barred_parseCmp : Barred (fun e => e.bare = true) (inp.parseCmp calls) := by
  refine .here fun _ => (barred_parseBitor h).bind fun lhs hlhs => stays_peek.then fun t => ?_
  cases Input.cmpOp t.kind with
  | none => exact .pure hlhs
  | some op =>
    exact stays_advance.then fun _ => (barred_parseBitor h).bind fun _ hrhs =>
      .spanned fun _ => Bool.and_eq_true_iff.2 ⟨hlhs, hrhs⟩

theorem barred_parseOr : Barred (fun e => e.bare = true) (inp.parseOr calls) :=
  barred_parseLeft <| barred_parseLeft <| barred_parseCmp h

theorem barred_parseRangeEnd (start : Option Expr) (hstart : Expr.bareOption start = true)
    (op : TokenKind) : Barred (fun e => e.bare = true) (inp.parseRangeEnd mark calls start op) := by
  have hopen : (Expr.bareOption start && Expr.bareOption none) = true :=
    Bool.and_eq_true_iff.2 ⟨hstart, rfl⟩
  exact .ite (.spanned fun _ => hopen) <| stays_peek.then fun _ => .ite (.spanned fun _ => hopen) <|
    (barred_parseOr h).bind fun _ hstop => .spanned fun _ => Bool.and_eq_true_iff.2 ⟨hstart, hstop⟩

theorem barred_parseRange : Barred (fun e => e.bare = true) (inp.parseRange calls) := by
  refine .here fun mark => stays_peek.then fun _ =>
    .ite (stays_advance.then fun _ => barred_parseRangeEnd h none rfl _) ?_
  exact (barred_parseOr h).bind fun lhs hlhs => stays_peek.then fun _ =>
    .ite (stays_advance.then fun _ => barred_parseRangeEnd h (some lhs) hlhs _) (.pure hlhs)

end

theorem barred_exprLevel : ∀ depth : Nat, ExprBarred (inp.exprLevel depth)
  | 0 => ⟨.fault, .fault, .fault⟩
  | depth + 1 =>
    have h := barred_exprLevel depth
    ⟨barred_parseRange h, barred_parsePow h, barred_parseUnary h⟩

theorem barred_exprRec : ExprBarred inp.exprRec := barred_exprLevel _

end Alcy.Parser
