import Alcy.Parser.Outcomes

/-! # Refusals

A parse function refuses when it returns null and has reported an error. What no expression begins
with is refused at every level of precedence. -/
namespace Alcy.Parser
open Alcy.Ast Alcy.Diag
open Alcy.Lexer (Token TokenKind)
open PM

variable {inp : Input} {m : Mode} {l : Lexeme} {ls : List Lexeme} {s s' : PState} {α β : Type}
  {p : PM α} {f : α → PM β} {Q : α → PState → Prop} {back : ExprRec} {mark : Nat}

/-- No value, and more in the bag than the mode has. -/
def Refused (m : Mode) : Judgement := fun _ r =>
  ∃ s', r = .ok (none, s') ∧ m.bag.length < s'.bag.length

abbrev Refuses (m : Mode) (p : PM α) (s : PState) : Prop := Falls (Refused m) p s

theorem Refuses.not_gives (h : Refuses m p s) : ¬ Gives p s Q := by
  rintro ⟨a, u, ha, -⟩
  obtain ⟨v, hv, -⟩ := h
  rw [hv] at ha
  cases ha

theorem Refuses.left (h : Refuses m p s) : Refuses m (p >>= f) s := by
  obtain ⟨v, hv, hbag⟩ := h
  exact ⟨v, by rw [bind_run, hv], hbag⟩

theorem Refuses.loop {step : α → PM (α × Bool)} {fuel : Nat} {acc : α}
    (h : Refuses m (step acc) s) : Refuses m (loopM step (fuel + 1) acc) s := by
  obtain ⟨v, hv, hbag⟩ := h
  exact ⟨v, by simp only [loopM, hv], hbag⟩

theorem refused_lasting (m : Mode) : Lasting (Refused m) where
  bind h _ := Refuses.left h
  loop h _ := Refuses.loop h

theorem At.reportExpected (h : At inp m ls s) (what : String) :
    ∃ s', inp.reportExpected what s = .ok (some (), s') ∧ m.bag.length < s'.bag.length := by
  obtain ⟨l, ls, rfl⟩ := List.exists_cons_of_ne_nil h.stream.ne_nil
  obtain ⟨t, ht, -, -⟩ := h.token
  have hlen : ∀ d : Diagnostic, m.bag.length < (s.bag ++ [d]).length := by
    intro d
    rw [h.bag, List.length_append]
    exact Nat.lt_succ_self _
  have hrun : ∃ span message, inp.reportExpected what s = .ok (some (), { s with
      bag := emit s.bag .error kParserUnexpectedToken span message }) := by
    rw [Input.reportExpected, bind_run, atEnd_run ht]
    by_cases heof : t.kind = .eof
    · rw [heof, beq_self_eq_true]
      simp only [if_true, bind_run, PM.here, Input.spanFrom, ht]
      exact ⟨_, _, rfl⟩
    · rw [beq_eq_false_iff_ne.2 heof]
      simp only [if_neg Bool.false_ne_true, bind_run, peek_run ht]
      exact ⟨_, _, rfl⟩
  obtain ⟨span, message, hrun⟩ := hrun
  exact ⟨_, hrun, hlen _⟩

/-- Another kind than the expected one. -/
theorem Refuses.expect {kind : TokenKind} {what : String} (h : At inp m ls s) (hkind : kind ≠ .eof)
    (hne : nextKind ls ≠ kind) : Refuses m (inp.expect kind what) s := by
  obtain ⟨s', hrun, hbag⟩ := h.reportExpected what
  refine ⟨s', ?_, hbag⟩
  rw [Input.expect, bind_run, h.accept_no hkind hne]
  simp only [if_neg Bool.false_ne_true, bind_run, hrun]
  rfl

/-! ## What no expression begins with -/

theorem parsePath_refuses (h : At inp m ls s) (hstart : isPathSegment (nextKind ls) = false) :
    Refuses m inp.parsePath s := by
  obtain ⟨l, ls, rfl⟩ := List.exists_cons_of_ne_nil h.stream.ne_nil
  rw [nextKind_cons] at hstart
  refine .here (Refuses.left (Refuses.loop (.peek h fun t ht => ?_)))
  have hkind : t.kind = l.kind := congrArg Lexeme.kind ht
  refine .no (by rw [hkind, hstart]; exact Bool.false_ne_true) (.yes rfl ?_)
  refine Refuses.left (.expect h TokenKind.noConfusion fun heq => ?_)
  rw [show l.kind = .ident from heq] at hstart
  exact Bool.noConfusion hstart

/-- The branch of a path, which every kind without a branch of its own is left to. -/
theorem parsePathExpr_refuses (h : At inp m ls s) (hstart : isPathSegment (nextKind ls) = false) :
    Refuses m (inp.parsePathExpr mark back) s :=
  .left (parsePath_refuses h hstart)

theorem startsAt_cases {k : TokenKind} (h : startsAt 0 k = false) :
    startsPrimary k = false ∧ prefixOp k = false ∧ Input.isRangeOp k = false := by
  simp only [startsAt, Bool.or_eq_false_iff, Nat.zero_le, decide_true, Bool.and_true,
    beq_self_eq_true, and_assoc] at h
  exact h

theorem startsPrimary_cases {k : TokenKind} (h : startsPrimary k = false) :
    Input.literalKind k = none ∧ isPathSegment k = false ∧ k ≠ .lParen ∧ k ≠ .lBrace ∧ k ≠ .if ∧
      k ≠ .match ∧ k ≠ .loop ∧ k ≠ .while ∧ k ≠ .ret ∧ k ≠ .break ∧ k ≠ .continue := by
  simp only [startsPrimary, Bool.or_eq_false_iff, beq_eq_false_iff_ne, Option.isSome_eq_false_iff,
    Option.isNone_iff_eq_none, and_assoc] at h
  exact h

theorem parsePrimary_refuses (h : At inp m ls s) (hstart : startsPrimary (nextKind ls) = false) :
    Refuses m (inp.parsePrimary back) s := by
  obtain ⟨l, ls, rfl⟩ := List.exists_cons_of_ne_nil h.stream.ne_nil
  rw [nextKind_cons] at hstart
  obtain ⟨hliteral, hpath, hparen, hbrace, hif, hmatch, hloop, hwhile, hret, hbreak, hcontinue⟩ :=
    startsPrimary_cases hstart
  refine .here (.peek h fun t ht => ?_)
  rw [show t.kind = l.kind from congrArg Lexeme.kind ht]
  split
  · next heq => exact absurd heq hparen
  · next heq => exact absurd heq hbrace
  · next heq => exact absurd heq hif
  · next heq => exact absurd heq hmatch
  · next heq => exact absurd heq hloop
  · next heq => exact absurd heq hwhile
  · next heq => exact absurd heq hret
  · next heq => exact absurd heq hbreak
  · next heq => exact absurd heq hcontinue
  · rw [hliteral]
    exact parsePathExpr_refuses h hpath

theorem parseUnary_refuses (h : At inp m ls s) (hstart : startsAt 0 (nextKind ls) = false) :
    Refuses m (inp.parseUnary back) s := by
  obtain ⟨hprimary, hprefix, -⟩ := startsAt_cases hstart
  have hpostfix : Refuses m (inp.parsePostfix back) s := .here (Refuses.left (parsePrimary_refuses h hprimary))
  obtain ⟨l, ls, rfl⟩ := List.exists_cons_of_ne_nil h.stream.ne_nil
  rw [nextKind_cons] at hprefix
  refine .here (.peek h fun t ht => ?_)
  dsimp only
  rw [show t.kind = l.kind from congrArg Lexeme.kind ht]
  split
  · next heq => exact absurd hprefix (by rw [heq]; exact Bool.noConfusion)
  · next heq => exact absurd hprefix (by rw [heq]; exact Bool.noConfusion)
  · next heq => exact absurd hprefix (by rw [heq]; exact Bool.noConfusion)
  · next heq => exact absurd hprefix (by rw [heq]; exact Bool.noConfusion)
  · exact hpostfix

theorem parseRange_refuses (hstays : ExprStays Forward back) (h : At inp m ls s)
    (hstart : startsAt 0 (nextKind ls) = false) : Refuses m (inp.parseRange back) s := by
  have hor := parseOr_falls (refused_lasting m) hstays (parseUnary_refuses h hstart)
  obtain ⟨-, -, hrange⟩ := startsAt_cases hstart
  obtain ⟨l, ls, rfl⟩ := List.exists_cons_of_ne_nil h.stream.ne_nil
  rw [nextKind_cons] at hrange
  refine .here (.peek h fun t ht => ?_)
  rw [show t.kind = l.kind from congrArg Lexeme.kind ht, hrange]
  exact Refuses.left hor

/-- `parse_expr` refuses what no expression begins with. -/
theorem parseExpr_refuses (h : At inp m ls s) (hstart : startsAt 0 (nextKind ls) = false) :
    Refuses m inp.parseExpr s :=
  parseRange_refuses (stays_exprLevel _) h hstart

end Alcy.Parser
