import Alcy.Parser.Keeping
import Alcy.Parser.ReadBack

/-! # Outcomes that last

A judgement about the outcome of a parse function lasts when nothing that the callers do afterwards can
take it back: that there is no value and an error, or that the cursor is past a place. The rules go with
those of `Gives`; what holds of an operand then holds of every level of precedence above it. -/
namespace Alcy.Parser
open Alcy.Ast Alcy.Diag
open Alcy.Lexer (Token TokenKind)
open PM

/-- What may be said of how a parse function of one type comes out. -/
abbrev Outcome (α : Type) := Except Fault (Option α × PState) → Prop

/-- The parse function comes out so in a state. -/
def Comes {α : Type} (D : Outcome α) (p : PM α) (s : PState) : Prop := D (p s)

/-- What may be said of how any parse function comes out. -/
abbrev Judgement := (α : Type) → Outcome α

/-- The outcome of the parse function in a state is as judged. -/
abbrev Falls (K : Judgement) {α : Type} (p : PM α) (s : PState) : Prop := Comes (K α) p s

/-- The judgement stays when more follows: the cursor does not go back. -/
structure Lasting (K : Judgement) : Prop where
  bind : ∀ {α β : Type} {p : PM α} {f : α → PM β} {s : PState}, Falls K p s →
    (∀ a, Stays Forward (f a)) → Falls K (p >>= f) s
  loop : ∀ {α : Type} {step : α → PM (α × Bool)} {fuel : Nat} {acc : α} {s : PState},
    Falls K (step acc) s → (∀ acc, Stays Forward (step acc)) → Falls K (loopM step (fuel + 1) acc) s

variable {K : Judgement} {β : Type} {D : Outcome β} {inp : Input} {m : Mode} {l : Lexeme} {ls : List Lexeme} {s s' : PState}
  {α : Type} {p : PM α} {f : α → PM β} {Q : α → PState → Prop} {back : ExprRec} {mark M : Nat}

theorem Comes.step {a : α} (hp : p s = .ok (some a, s')) (h : Comes D (f a) s') :
    Comes D (p >>= f) s := by
  rw [Comes, bind_run, hp]
  exact h

theorem Comes.bind (hp : Gives p s Q) (h : ∀ a s', Q a s' → Comes D (f a) s') :
    Comes D (p >>= f) s := by
  obtain ⟨a, u, ha, hQ⟩ := hp
  exact .step ha (h a u hQ)

theorem Comes.here {f : Nat → PM β} (h : Comes D (f s.pos) s) : Comes D (PM.here >>= f) s :=
  .step rfl h

theorem Comes.after {D : Outcome α} (h : Comes D p s) (hlt : mark < s.pos) : Comes D (p.after mark) s := by
  rw [Comes, PM.after, if_neg (Nat.not_le_of_lt hlt)]
  exact h

theorem Comes.yes {D : Outcome α} {c : Prop} [Decidable c] {p' : PM α} (hc : c) (h : Comes D p s) :
    Comes D (if c then p else p') s := by
  rwa [if_pos hc]

theorem Comes.no {D : Outcome α} {c : Prop} [Decidable c] {p' : PM α} (hc : ¬ c) (h : Comes D p' s) :
    Comes D (if c then p else p') s := by
  rwa [if_neg hc]

theorem Comes.peek {f : Token → PM β} (h : At inp m (l :: ls) s)
    (hf : ∀ t, inp.lexeme t = l → Comes D (f t) s) : Comes D (inp.peek >>= f) s := by
  obtain ⟨t, ht, hlex, -⟩ := h.token
  exact .step (peek_run ht) (hf t hlex)

theorem Comes.atEnd {f : Bool → PM β} (h : At inp m (l :: ls) s)
    (hf : Comes D (f (l.kind == .eof)) s) : Comes D (inp.atEnd >>= f) s := by
  obtain ⟨t, ht, hlex, -⟩ := h.token
  have hkind : t.kind = l.kind := congrArg Lexeme.kind hlex
  exact .step (atEnd_run ht) (by rwa [hkind])

theorem Comes.check {f : Bool → PM β} {kind : TokenKind} (h : At inp m ls s) (hkind : kind ≠ .eof)
    (hf : Comes D (f (nextKind ls == kind)) s) : Comes D (inp.check kind >>= f) s :=
  .step (h.check hkind) hf

theorem Comes.advance {f : Unit → PM β} (h : At inp m (l :: ls) s) (hl : l.kind ≠ .eof)
    (hf : ∀ s', At inp m ls s' → Comes D (f ()) s') : Comes D (inp.advance >>= f) s := by
  obtain ⟨s', hrun, hs'⟩ := h.advance hl
  exact .step hrun (hf s' hs')

theorem Comes.accept {f : Bool → PM β} (h : At inp m (l :: ls) s) (hl : l.kind ≠ .eof)
    (hf : ∀ s', At inp m ls s' → Comes D (f true) s') : Comes D (inp.accept l.kind >>= f) s := by
  obtain ⟨s', hrun, hs'⟩ := h.accept_yes hl
  exact .step hrun (hf s' hs')

theorem Comes.decline {f : Bool → PM β} {kind : TokenKind} (h : At inp m ls s)
    (hkind : kind ≠ .eof) (hne : nextKind ls ≠ kind) (hf : Comes D (f false) s) :
    Comes D (inp.accept kind >>= f) s :=
  .step (h.accept_no hkind hne) hf

theorem Comes.expect {f : Unit → PM β} {what : String} (h : At inp m (l :: ls) s) (hl : l.kind ≠ .eof)
    (hf : ∀ s', At inp m ls s' → Comes D (f ()) s') : Comes D (inp.expect l.kind what >>= f) s := by
  obtain ⟨s', hrun, hs'⟩ := h.expect hl what
  exact .step hrun (hf s' hs')

theorem Comes.unclosed {p p' : PM β} {close : TokenKind} (h : At inp m (l :: ls) s) (hne : close ≠ .eof)
    (hk : l.kind ≠ close) (hl : l.kind ≠ .eof) (hp : Comes D p' s) :
    Comes D (inp.check close >>= fun a => inp.atEnd >>= fun b => if a || b then p else p') s := by
  refine .check h hne (.atEnd h (.no ?_ hp))
  rw [nextKind_cons, beq_eq_false_iff_ne.2 hk, beq_eq_false_iff_ne.2 hl]
  exact Bool.false_ne_true

theorem Comes.mut {f : Bool → PM β} {isMut : Bool} (hs : At inp m (mutText isMut ++ ls) s)
    (hne : nextKind ls ≠ .mut) (hf : ∀ s', At inp m ls s' → Comes D (f isMut) s') :
    Comes D (inp.accept .mut >>= f) s := by
  cases isMut with
  | true => exact .accept hs TokenKind.noConfusion hf
  | false => exact .decline hs TokenKind.noConfusion hne (hf s hs)

/-! ## Upwards -/

section
variable (hK : Lasting K) (hstays : ExprStays Forward back)
include hK

/-- What is said of the first part of a parse function that reads its mark first. -/
theorem Falls.first {f : α → Nat → PM β} (h : Falls K p s)
    (hf : ∀ a mark, Stays Forward (f a mark)) :
    Falls K (PM.here >>= fun mark => p >>= fun a => f a mark) s :=
  .here (hK.bind h fun a => hf a s.pos)

theorem parseLeft_falls {op : TokenKind → Option BinaryOp} {operand : PM Expr}
    (hoperand : Stays Forward operand) (h : Falls K operand s) :
    Falls K (inp.parseLeft op operand) s := by
  refine h.first hK fun lhs mark => .loopM (fun lhs => stays_peek.bind fun t => ?_) _ _
  cases op t.kind with
  | none => exact .pure
  | some op => exact stays_advance.bind fun _ => hoperand.bind fun _ => .spanned

theorem parseCast_falls (h : Falls K (inp.parseUnary back) s) : Falls K (inp.parseCast back) s :=
  h.first hK fun _ _ => (stays_accept _).bind fun _ =>
    .ite (stays_parseClosedType.bind fun _ => .spanned) .pure

include hstays

theorem parsePow_falls (h : Falls K (inp.parseCast back) s) : Falls K (inp.parsePow back) s :=
  h.first hK fun _ _ => (stays_accept _).bind fun _ =>
    .ite (hstays.after.pow.bind fun _ => .spanned) .pure

theorem parseCmp_falls (h : Falls K (inp.parseBitor back) s) : Falls K (inp.parseCmp back) s := by
  refine h.first hK fun lhs mark => stays_peek.bind fun t => ?_
  cases Input.cmpOp t.kind with
  | none => exact .pure
  | some op => exact stays_advance.bind fun _ => (stays_parseBitor hstays).bind fun _ => .spanned

/-- What is said of a prefix operand is said of everything up to `||`. -/
theorem parseOr_falls (h : Falls K (inp.parseUnary back) s) : Falls K (inp.parseOr back) s := by
  have hmul : Falls K (inp.parseMul back) s :=
    parseLeft_falls hK (stays_parsePow hstays) (parsePow_falls hK hstays (parseCast_falls hK h))
  have hadd : Falls K (inp.parseAdd back) s := parseLeft_falls hK (stays_parseMul hstays) hmul
  have hshift : Falls K (inp.parseShift back) s := parseLeft_falls hK (stays_parseAdd hstays) hadd
  have hbitand : Falls K (inp.parseBitand back) s :=
    parseLeft_falls hK (stays_parseShift hstays) hshift
  have hbitxor : Falls K (inp.parseBitxor back) s :=
    parseLeft_falls hK (stays_parseBitand hstays) hbitand
  have hbitor : Falls K (inp.parseBitor back) s :=
    parseLeft_falls hK (stays_parseBitxor hstays) hbitxor
  have hand : Falls K (inp.parseAnd back) s :=
    parseLeft_falls hK (stays_parseCmp hstays) (parseCmp_falls hK hstays hbitor)
  exact parseLeft_falls hK (stays_parseAnd hstays) hand

end

end Alcy.Parser
