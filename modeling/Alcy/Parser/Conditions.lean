import Alcy.Parser.Bare
import Alcy.Parser.Edges
import Alcy.Parser.Refusing
import Alcy.Parser.Statements

/-! # Conditions and scrutinees

The brace after a condition belongs to the body. A plain condition and a scrutinee are parsed without
struct literals, also inside their brackets; the initialiser of a pattern condition is not, so that it
may run into the brace. -/
namespace Alcy.Parser
open Alcy.Ast Alcy.Diag
open Alcy.Lexer (Token TokenKind)
open Input (StmtLead)
open PM

/-! ## Past the brace -/

/-- A value only with the cursor past this place. -/
def Past (n : Nat) : Judgement := fun _ r => ∀ a s', r = .ok (some a, s') → n < s'.pos

variable {inp : Input} {m : Mode} {ls : List Lexeme} {s : PState} {back : ExprRec} {n : Nat} {α : Type}

/-- The cursor does not come back. -/
theorem past_of_pos {p : PM α} (hlt : n < s.pos) (hp : Stays Forward p) : Falls (Past n) p s := by
  intro a s' hrun
  exact Nat.lt_of_lt_of_le hlt (hp s (some a) s' hrun)

theorem past_lasting (n : Nat) : Lasting (Past n) where
  bind := by
    intro α β p f s h hf b s' hrun
    obtain ⟨a, u, hp, hrest⟩ := bind_some hrun
    exact Nat.lt_of_lt_of_le (h a u hp) (hf a u (some b) s' hrest)
  loop := by
    intro α step fuel acc s h hstep a s' hrun
    unfold loopM at hrun
    rcases hr : step acc s with e | ⟨_ | ⟨acc', _ | _⟩, u⟩ <;> simp only [hr] at hrun
    · cases hrun
    · cases hrun
    · cases hrun
      exact h _ _ hr
    · split at hrun
      · cases hrun
      · exact Nat.lt_of_lt_of_le (h _ _ hr) (Stays.loopM hstep fuel acc' u (some a) s' hrun)

/-- A state before these lexemes is not past its own place. -/
theorem Falls.not_at {p : PM α} {Q : α → Prop} (h : Falls (Past (inp.count - ls.length)) p s) :
    ¬ Gives p s fun a s' => Q a ∧ At inp m ls s' := by
  rintro ⟨a, s', hrun, -, hs'⟩
  have hpos := h a s' hrun
  have hcount := hs'.count
  omega

theorem At.past {l : Lexeme} {s' : PState} (h : At inp m (l :: ls) s) (h' : At inp m ls s') :
    inp.count - (l :: ls).length < s'.pos := by
  have hcount := h.count
  have := h.pos_lt h' (Nat.lt_succ_self _)
  omega

/-- An operand that begins with the brace takes it. -/
theorem parseUnary_past (hs : At inp m ls s) (hnext : nextKind ls = .lBrace)
    (hstays : ExprStays Forward back) :
    Falls (Past (inp.count - ls.length)) (inp.parseUnary back) s := by
  obtain ⟨l, ls, rfl⟩ := List.exists_cons_of_ne_nil hs.stream.ne_nil
  obtain ⟨kind, text⟩ := l
  obtain rfl : kind = .lBrace := hnext
  have hblock : Falls (Past (inp.count - (Lexeme.mk .lBrace text :: ls).length)) (inp.parseBlock back) s := by
    refine .here (.bind (Q := fun _ => At inp m ls) ?_ fun _ s1 hs1 => ?_)
    · obtain ⟨s1, hrun, hs1⟩ := hs.accept_yes TokenKind.noConfusion
      exact ⟨(), s1, by rw [Input.expect, bind_run, hrun]; rfl, hs1⟩
    · exact past_of_pos (hs.past hs1) (.bind (.loopM (fun acc => stays_blockRound hstays.after acc) _ _)
        fun _ => (stays_expect _ _).bind fun _ => .spanned)
  have hprimary : Falls (Past (inp.count - (Lexeme.mk .lBrace text :: ls).length))
      (inp.parsePrimary back) s := by
    rw [Input.parsePrimary_eq]
    refine .here (.peek hs fun t ht => ?_)
    rw [show t.kind = .lBrace from congrArg Lexeme.kind ht]
    exact hblock.first (past_lasting _) fun _ _ => .spanned
  rw [Input.parseUnary_eq]
  refine .here (.peek hs fun t ht => ?_)
  rw [show t.kind = .lBrace from congrArg Lexeme.kind ht, unaryBranch_postfix rfl]
  exact hprimary.first (past_lasting _)
    fun _ _ => .loopM (fun base => stays_postfixRound hstays.after base) _ _

theorem parseRange_past (hs : At inp m ls s) (hnext : nextKind ls = .lBrace)
    (hstays : ExprStays Forward back) :
    Falls (Past (inp.count - ls.length)) (inp.parseRange back) s := by
  have hor := parseOr_falls (past_lasting _) hstays (parseUnary_past hs hnext hstays)
  obtain ⟨l, ls, rfl⟩ := List.exists_cons_of_ne_nil hs.stream.ne_nil
  refine .here (.peek hs fun t ht => .no ?_ ?_)
  · rw [show t.kind = .lBrace from (congrArg Lexeme.kind ht).trans hnext]
    exact Bool.false_ne_true
  · exact (past_lasting _).bind hor fun _ => stays_peek.bind fun _ =>
      .ite (stays_advance.bind fun _ => stays_parseRangeEnd hstays _ _) .pure

/-- Whatever runs into the brace goes past it. -/
theorem brace_edge (hnext : nextKind ls = .lBrace) {depth : Nat} (hdepth : ls.length < depth + 1) :
    Edge (Past (inp.count - ls.length)) inp m ls (inp.exprLevel depth) where
  path path mark s hends hs := by
    have hallow : m.allow = true := by
      rw [ExprText.ends, hnext] at hends
      cases h : m.allow with
      | true => rfl
      | false => exact absurd (h ▸ hends) (by decide)
    have hstays : ExprStays Forward (inp.exprLevel depth) := stays_exprLevel depth
    refine .bind (parsePath_gives hs (by rw [hnext]; exact TokenKind.noConfusion)) fun path' s1 h1 => ?_
    have hs1 := h1.2
    obtain ⟨l, ls, rfl⟩ := List.exists_cons_of_ne_nil hs1.stream.ne_nil
    obtain ⟨kind, text⟩ := l
    obtain rfl : kind = .lBrace := hnext
    refine .decline hs1 TokenKind.noConfusion TokenKind.noConfusion (.no Bool.false_ne_true ?_)
    obtain ⟨s2, hrun, hs2⟩ := hs1.accept_yes TokenKind.noConfusion
    have hstruct : inp.acceptStructLit s1 = .ok (some true, s2) := by
      rw [Input.acceptStructLit, bind_run]
      change (if s1.allowStructLit then inp.accept .lBrace else pure false) s1 = _
      rw [hs1.allow, hallow, if_pos rfl]
      exact hrun
    exact .step hstruct (.yes rfl (past_of_pos (hs1.past hs2) (stays_parseStructLit hstays.after path')))
  ret s _ hs := by
    have := List.length_pos_iff.2 hs.stream.ne_nil
    obtain ⟨depth, rfl⟩ : ∃ d, depth = d + 1 := ⟨depth - 1, by omega⟩
    exact parseRange_past hs hnext (stays_exprLevel depth)
  range op s _ hs :=
    parseOr_falls (past_lasting _) (stays_exprLevel depth)
      (parseUnary_past hs hnext (stays_exprLevel depth))
  free := by rw [hnext]; rfl
  noElse := by rw [hnext]; exact TokenKind.noConfusion

/-- No type runs into a brace. -/
theorem ExprText.castStops_brace (e : ExprText) : e.castStops .lBrace = true := by
  fun_induction ExprText.castStops TokenKind.lBrace e with
  | case1 op inner ih => exact ih
  | case2 isMut inner ih => exact ih
  | case3 op lhs rhs ih => exact ih
  | case4 inner type => exact type.stops_of_ne TokenKind.noConfusion TokenKind.noConfusion TokenKind.noConfusion
  | case5 value ih => exact ih
  | case6 start op stop ih => exact ih
  | case7 => rfl

/-- Before a brace, an expression that does not end there is never read as what it is. -/
theorem parseExpr_past (hm : m.bank = 0) {e : ExprText} (hlegible : e.legible m.allow = true)
    (hnext : nextKind ls = .lBrace) (hends : e.ends m.allow .lBrace = false)
    (hs : At inp m (e.lexemes ++ ls) s) : Falls (Past (inp.count - ls.length)) inp.exprRec.expr s :=
  (exprLevel_misses (past_lasting _) hm (fun _ hdepth => brace_edge hnext hdepth) inp.loopFuel).expr e s
    (Nat.zero_le _) hlegible (hnext ▸ hends) (hnext ▸ e.castStops_brace) hs (Nat.lt_succ_of_lt hs.lt_fuel)

/-! ## Conditions -/

def condIsPattern : Cond → Bool
  | .pattern _ _ => true
  | .value _ => false

theorem condIsPattern_plain (cond : Cond) : condIsPattern cond.plain = condIsPattern cond := by
  cases cond <;> rfl

/-- `parse_cond` after `scan_lead`. -/
def Input.condBranch (inp : Input) (back : ExprRec) (lead : StmtLead) : PM Cond := do
  match lead with
  | .decl =>
    let pattern ← inp.parsePattern
    inp.expect .colonEq "\x60:=\x60"
    return .pattern pattern (← back.expr)
  | _ => return .value (← withoutStructLit back.expr)

theorem Input.parseCond_eq :
    inp.parseCond back = inp.scanLead >>= fun lead => inp.condBranch back lead := rfl

theorem condBranch_kind (lead : StmtLead) :
    Yields (fun cond => condIsPattern cond = (lead == .decl)) (inp.condBranch back lead) := by
  cases lead with
  | decl => exact .bind fun _ => .bind fun _ => .bind fun _ => .pure rfl
  | reassign => exact .bind fun _ => .pure rfl
  | none => exact .bind fun _ => .pure rfl

/-- Which kind of condition it is depends on what `scan_lead` answers. -/
theorem parseCond_kind (hs : At inp m ls s) {Q : Cond → PState → Prop}
    (h : Gives (inp.parseCond back) s Q) :
    ∃ cond s', Q cond s' ∧ condIsPattern cond = ((scan ls 0).lead == .decl) := by
  obtain ⟨cond, s', hrun, hQ⟩ := h
  rw [Input.parseCond_eq, bind_run, hs.scanLead] at hrun
  exact ⟨cond, s', hQ, condBranch_kind _ _ _ _ hrun⟩

/-- What is parsed without struct literals has none. -/
theorem parseCond_bare : Yields (fun cond => condIsPattern cond = false → cond.bare = true)
    (inp.parseCond inp.exprRec) := by
  rw [Input.parseCond_eq]
  refine .bind fun lead => ?_
  have hvalue : Yields (fun cond => condIsPattern cond = false → cond.bare = true)
      (do return .value (← withoutStructLit inp.exprRec.expr) : PM Cond) := by
    intro s cond s' hrun _
    obtain ⟨e, u, he, hrest⟩ := bind_some hrun
    cases hrest
    exact barred_exprRec.expr.off he
  cases lead with
  | decl => exact .bind fun _ => .bind fun _ => .bind fun _ => .pure fun h => Bool.noConfusion h
  | reassign => exact hvalue
  | none => exact hvalue

/-- The expression is legible by itself, unless it has struct literals where none are parsed. -/
def ExprText.written (allow : Bool) (e : ExprText) : Bool := e.legible allow || !(allow || e.tree.bare)

/-- It has struct literals only where they are parsed, and it ends before the brace. -/
def ExprText.leavesBrace (allow : Bool) (e : ExprText) : Bool :=
  (allow || e.tree.bare) && e.ends allow .lBrace

theorem ExprText.legible_of_leaves {e : ExprText} {allow : Bool} (hwritten : e.written allow = true)
    (hbare : (allow || e.tree.bare) = true) : e.legible allow = true := by
  rw [ExprText.written, hbare] at hwritten
  simpa only [Bool.not_true, Bool.or_false] using hwritten

def CondText.written (allow : Bool) : CondText → Bool
  | .pattern lhs init => lhs.legible && init.written allow
  | .value inner => inner.written false

/-- The condition is seen for what it is, and leaves the brace to the body. -/
def CondText.leavesBrace (allow : Bool) : CondText → Bool
  | .pattern lhs init => !lhs.braced && init.leavesBrace allow
  | .value inner => scan inner.lexemes 0 != .found .decl && inner.leavesBrace false

theorem CondText.legible_of_leaves {cond : CondText} {allow : Bool} (hwritten : cond.written allow = true)
    (hleaves : cond.leavesBrace allow = true) : cond.legible allow = true := by
  cases cond with
  | pattern lhs init =>
    rw [CondText.written, Bool.and_eq_true] at hwritten
    rw [CondText.leavesBrace, ExprText.leavesBrace, Bool.and_eq_true, Bool.and_eq_true] at hleaves
    rw [CondText.legible, lhs.passed_eq, hwritten.1, hleaves.1, hleaves.2.2,
      ExprText.legible_of_leaves hwritten.2 hleaves.2.1]
    rfl
  | value inner =>
    rw [CondText.written] at hwritten
    rw [CondText.leavesBrace, ExprText.leavesBrace, Bool.and_eq_true, Bool.and_eq_true] at hleaves
    rw [CondText.legible, hleaves.1, hleaves.2.2, ExprText.legible_of_leaves hwritten hleaves.2.1]
    rfl

theorem scan_brace (hnext : nextKind ls = .lBrace) : (scan ls 0).lead = .none := by
  cases ls with
  | nil => exact TokenKind.noConfusion hnext
  | cons l ls =>
    obtain ⟨kind, text⟩ := l
    obtain rfl : kind = .lBrace := hnext
    rfl

/-- Without struct literals, what runs into the brace goes past it too. -/
theorem barred_past (hm : m.bank = 0) {e : ExprText} (hlegible : e.legible false = true)
    (hnext : nextKind ls = .lBrace) (hends : e.ends false .lBrace = false)
    (hs : At inp m (e.lexemes ++ ls) s) :
    Falls (Past (inp.count - ls.length)) (withoutStructLit inp.exprRec.expr) s := by
  have hbar : At inp m.barred (e.lexemes ++ ls) { s with allowStructLit := false } :=
    ⟨hs.ahead, hs.stream, hs.bank, rfl, hs.bag⟩
  have hpast := parseExpr_past (m := m.barred) hm hlegible hnext hends hbar
  intro a s' hrun
  rw [withoutStructLit] at hrun
  split at hrun
  · cases hrun
  · next r u hexpr =>
    cases hrun
    have hlt : inp.count - ls.length < u.pos := hpast a u hexpr
    exact hlt

/-- `withoutStructLit` reads an expression before the brace exactly when it leaves the brace. -/
theorem scrutinee_iff (hm : m.bank = 0) {e : ExprText} (hwritten : e.written false = true)
    (hnext : nextKind ls = .lBrace) (hs : At inp m (e.lexemes ++ ls) s) :
    Gives (withoutStructLit inp.exprRec.expr) s (fun result s' => result.plain = e.tree ∧ At inp m ls s') ↔
      e.leavesBrace false = true := by
  constructor
  · intro h
    have hbare : e.tree.bare = true := by
      obtain ⟨result, s', hrun, hplain, -⟩ := h
      have hbare := barred_exprRec.expr.off hrun
      rw [← hplain, result.bare_plain]
      exact hbare
    refine Bool.and_eq_true_iff.2 ⟨hbare, Bool.of_not_eq_false fun hends => ?_⟩
    exact (barred_past hm (ExprText.legible_of_leaves hwritten hbare) hnext hends hs).not_at h
  · intro hleaves
    rw [ExprText.leavesBrace, Bool.and_eq_true] at hleaves
    have hends : e.ends false (nextKind ls) = true := by rw [hnext]; exact hleaves.2
    have hfree : freeAt 0 (nextKind ls) = true := by rw [hnext]; rfl
    exact Gives.barred (exprRec_reads.takes (m := m.barred) hm
      (ExprText.legible_of_leaves hwritten hleaves.1) hends hfree) hs hs.lt_fuel rfl

theorem parseCond_value (hm : m.bank = 0) {inner : ExprText} (hwritten : inner.written false = true)
    (hnext : nextKind ls = .lBrace) (hs : At inp m (inner.lexemes ++ ls) s)
    (h : Gives (inp.parseCond inp.exprRec) s fun result s' =>
      result.plain = .value inner.tree ∧ At inp m ls s') :
    (CondText.value inner).leavesBrace m.allow = true := by
  have hdecl : scan inner.lexemes 0 ≠ .found .decl := by
    obtain ⟨result, s', hresult, hkind⟩ := parseCond_kind hs h
    rw [← condIsPattern_plain, hresult.1] at hkind
    intro hdecl
    rw [scan_append, hdecl] at hkind
    exact Bool.noConfusion hkind
  have hbare : inner.tree.bare = true := by
    obtain ⟨cond, u, hrun, hplain, -⟩ := h
    have hvalue : condIsPattern cond = false := by rw [← condIsPattern_plain, hplain]; rfl
    have hcond : cond.plain.bare = true := cond.bare_plain.trans (parseCond_bare s cond u hrun hvalue)
    rwa [hplain] at hcond
  refine Bool.and_eq_true_iff.2 ⟨bne_iff_ne.2 hdecl, Bool.and_eq_true_iff.2 ⟨hbare, ?_⟩⟩
  refine Bool.of_not_eq_false fun hends => ?_
  have hlead := hs.scanLead
  rw [inner.scan_stop hdecl (scan_brace hnext)] at hlead
  have hpast : Falls (Past (inp.count - ls.length)) (inp.parseCond inp.exprRec) s :=
    .step hlead ((past_lasting _).bind
      (barred_past hm (ExprText.legible_of_leaves hwritten hbare) hnext hends hs) fun _ => .pure)
  exact hpast.not_at h

theorem parseCond_pattern (hm : m.bank = 0) {lhs : PatternText} {init : ExprText}
    (hlhs : lhs.legible = true) (hwritten : init.written m.allow = true) (hnext : nextKind ls = .lBrace)
    (hs : At inp m (lhs.lexemes ++ symbol .colonEq :: (init.lexemes ++ ls)) s)
    (h : Gives (inp.parseCond inp.exprRec) s fun result s' =>
      result.plain = .pattern lhs.tree init.tree ∧ At inp m ls s') :
    (CondText.pattern lhs init).leavesBrace m.allow = true := by
  have hbraced : lhs.braced = false := by
    obtain ⟨result, s', hresult, hkind⟩ := parseCond_kind hs h
    rw [← condIsPattern_plain, hresult.1] at hkind
    refine Bool.eq_false_iff.2 fun hbraced => ?_
    rw [scan_append, lhs.scan_eq, if_pos hbraced] at hkind
    exact Bool.noConfusion hkind
  have hbare : (m.allow || init.tree.bare) = true := by
    cases hallow : m.allow with
    | true => rfl
    | false =>
      obtain ⟨cond, u, hrun, hplain, -⟩ := h
      have hcond := (barred_parseCond barred_exprRec s (some cond) u (hs.allow.trans hallow) hrun).2 cond rfl
      have hbare : cond.plain.bare = true := cond.bare_plain.trans hcond
      rwa [hplain] at hbare
  rw [CondText.leavesBrace, hbraced, ExprText.leavesBrace, hbare]
  refine Bool.of_not_eq_false fun hends => ?_
  have hlead := hs.scanLead
  have hpassed : passed lhs.lexemes = true := by rw [lhs.passed_eq, hbraced]; rfl
  rw [scan_passed hpassed] at hlead
  have hpast : Falls (Past (inp.count - ls.length)) (inp.parseCond inp.exprRec) s := by
    refine .step hlead (.bind (parsePattern_takes hlhs rfl _ s hs hs.lt_fuel rfl) fun lhs' s1 h1 => ?_)
    refine .expect h1.2 TokenKind.noConfusion fun s2 (hs2 : At inp m (init.lexemes ++ ls) s2) => ?_
    exact (past_lasting _).bind
      (parseExpr_past hm (ExprText.legible_of_leaves hwritten hbare) hnext hends hs2) fun _ => .pure
  exact hpast.not_at h

/-- A condition before the brace is read as what it is exactly when it leaves the brace. -/
theorem parseCond_iff (hm : m.bank = 0) {cond : CondText} (hwritten : cond.written m.allow = true)
    (hnext : nextKind ls = .lBrace) (hs : At inp m (cond.lexemes ++ ls) s) :
    Gives (inp.parseCond inp.exprRec) s (fun result s' => result.plain = cond.tree ∧ At inp m ls s') ↔
      cond.leavesBrace m.allow = true := by
  constructor
  · intro h
    cases cond with
    | value inner => exact parseCond_value hm hwritten hnext hs h
    | pattern lhs init =>
      rw [CondText.written, Bool.and_eq_true] at hwritten
      rw [CondText.lexemes, List.append_assoc, List.cons_append] at hs
      exact parseCond_pattern hm hwritten.1 hwritten.2 hnext hs h
  · intro hleaves
    exact parseCond_takes exprRec_reads hm (CondText.legible_of_leaves hwritten hleaves) ls s hs hs.lt_fuel
      hnext

/-! ## The five positions -/

theorem parseIf_reads (hm : m.bank = 0) {cond : CondText} {thenBlock : BlockText}
    {elseBlock : Option BlockText} (hwritten : cond.written m.allow = true)
    (hleaves : cond.leavesBrace m.allow = true) (hthen : thenBlock.legible m.allow = true)
    (helse : BlockText.optionLegible m.allow elseBlock = true)
    (hends : (ExprText.ifExpr cond thenBlock elseBlock).ends m.allow (nextKind ls) = true)
    (hs : At inp m ((ExprText.ifExpr cond thenBlock elseBlock).lexemes ++ ls) s) :
    Gives (inp.parseIf inp.exprRec) s fun result s' =>
      result.plain = (ExprText.ifExpr cond thenBlock elseBlock).tree ∧ At inp m ls s' := by
  have hlegible : (ExprText.ifExpr cond thenBlock elseBlock).legible m.allow = true := by
    rw [ExprText.legible, CondText.legible_of_leaves hwritten hleaves, hthen, helse]
    rfl
  exact parseIf_takes exprRec_reads hm hlegible hends ls s hs (Nat.lt_succ_of_lt hs.lt_fuel) rfl

theorem parseWhile_reads (hm : m.bank = 0) {cond : CondText} {body : BlockText}
    (hwritten : cond.written m.allow = true) (hleaves : cond.leavesBrace m.allow = true)
    (hbody : body.legible m.allow = true)
    (hs : At inp m ((ExprText.whileExpr cond body).lexemes ++ ls) s) :
    Gives (inp.parseWhile inp.exprRec) s fun result s' =>
      result.plain = (ExprText.whileExpr cond body).tree ∧ At inp m ls s' := by
  have hlegible : (ExprText.whileExpr cond body).legible m.allow = true := by
    rw [ExprText.legible, CondText.legible_of_leaves hwritten hleaves, hbody]
    rfl
  exact parseWhile_takes exprRec_reads hm hlegible ls s hs (Nat.lt_succ_of_lt hs.lt_fuel) rfl

theorem parseMatch_reads (hm : m.bank = 0) {scrutinee : ExprText} {arms : List ArmText}
    (hwritten : scrutinee.written false = true) (hleaves : scrutinee.leavesBrace false = true)
    (harms : ArmText.listLegible m.allow arms = true)
    (hs : At inp m ((ExprText.matchExpr scrutinee arms).lexemes ++ ls) s) :
    Gives (inp.parseMatch inp.exprRec) s fun result s' =>
      result.plain = (ExprText.matchExpr scrutinee arms).tree ∧ At inp m ls s' := by
  rw [ExprText.leavesBrace, Bool.and_eq_true] at hleaves
  have hlegible : (ExprText.matchExpr scrutinee arms).legible m.allow = true := by
    rw [ExprText.legible, ExprText.legible_of_leaves hwritten hleaves.1, hleaves.2, harms]
    rfl
  exact parseMatch_takes exprRec_reads hm hlegible ls s hs (Nat.lt_succ_of_lt hs.lt_fuel) rfl

/-- `if x { }`. -/
def plainInput : Input where
  tokens := [⟨.if, ⟨0, 0, 2⟩⟩, ⟨.ident, ⟨0, 3, 1⟩⟩, ⟨.lBrace, ⟨0, 5, 1⟩⟩, ⟨.rBrace, ⟨0, 7, 1⟩⟩,
    ⟨.eof, ⟨0, 8, 0⟩⟩]
  bytes := [105, 102, 32, 120, 32, 123, 32, 125]
  file := 0

theorem not_gives_of_none {p : PM α} {s' : PState} {Q : α → PState → Prop} (h : p s = .ok (none, s')) :
    ¬ Gives p s Q := by
  rintro ⟨a, u, hrun, -⟩
  cases hrun.symm.trans h

/-- `if x := y { }`. -/
def patternInput : Input where
  tokens := [⟨.if, ⟨0, 0, 2⟩⟩, ⟨.ident, ⟨0, 3, 1⟩⟩, ⟨.colonEq, ⟨0, 5, 2⟩⟩, ⟨.ident, ⟨0, 8, 1⟩⟩,
    ⟨.lBrace, ⟨0, 10, 1⟩⟩, ⟨.rBrace, ⟨0, 12, 1⟩⟩, ⟨.eof, ⟨0, 13, 0⟩⟩]
  bytes := [105, 102, 32, 120, 32, 58, 61, 32, 121, 32, 123, 32, 125]
  file := 0

/-- `match (P { }) { }`. -/
def parenInput : Input where
  tokens := [⟨.match, ⟨0, 0, 5⟩⟩, ⟨.lParen, ⟨0, 6, 1⟩⟩, ⟨.ident, ⟨0, 7, 1⟩⟩, ⟨.lBrace, ⟨0, 9, 1⟩⟩,
    ⟨.rBrace, ⟨0, 11, 1⟩⟩, ⟨.rParen, ⟨0, 12, 1⟩⟩, ⟨.lBrace, ⟨0, 14, 1⟩⟩, ⟨.rBrace, ⟨0, 16, 1⟩⟩,
    ⟨.eof, ⟨0, 17, 0⟩⟩]
  bytes := [109, 97, 116, 99, 104, 32, 40, 80, 32, 123, 32, 125, 41, 32, 123, 32, 125]
  file := 0

end Alcy.Parser
