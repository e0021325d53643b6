import Alcy.Lexer.Steps

/-! # Error tokens and error diagnostics

Tokens are made in two ways: `emit_error` appends an error token together with its diagnostic, and
every other token is of a kind that a source text spells. What both ways keep, the lexer keeps.
-/
namespace Alcy.Lexer
open Alcy.Diag

variable {src : Source}

/-! ## The kinds of tokens -/

/-- A kind that a text spells. -/
def Spelled (kind : TokenKind) : Prop := kind ≠ .error ∧ kind ≠ .eof

theorem lookupKeyword_spelled (word : List UInt8) : Spelled (lookupKeyword word) := by
  have hall : ∀ keyword ∈ kKeywords, keyword.2 ≠ .error ∧ keyword.2 ≠ .eof := by decide
  unfold lookupKeyword
  cases hfind : kKeywords.find? fun keyword => bytesOf keyword.1 == word with
  | none => exact ⟨by decide, by decide⟩
  | some keyword => exact hall keyword (List.mem_of_find?_eq_some hfind)

/-- Every symbol of a table is spelled. -/
def SymbolSpelled (r : Option (TokenKind × Nat)) : Prop :=
  ∀ kind width, r = some (kind, width) → Spelled kind

theorem SymbolSpelled.ite {p : Bool} {a b : Option (TokenKind × Nat)} (ha : SymbolSpelled a)
    (hb : SymbolSpelled b) : SymbolSpelled (if p then a else b) := by
  cases p with
  | true => exact ha
  | false => exact hb

theorem symbolKind_spelled (c n m : UInt8) : SymbolSpelled (Source.symbolKind c n m) := by
  unfold Source.symbolKind
  repeat' refine SymbolSpelled.ite ?_ ?_
  all_goals
    rintro kind width hk
    cases hk
  all_goals exact ⟨by decide, by decide⟩

/-! ## What every token keeps -/

/-- Kept by a move of the cursor and by both ways to make a token. -/
structure Kept (src : Source) (P : LexState → Prop) : Prop where
  move : ∀ s pos, P s → P { s with pos }
  push : ∀ s kind start length, Spelled kind → P s → P (src.pushSignificant kind start length s)
  error : ∀ s start length code message, P s → P (src.emitError start length code message s)

namespace Kept

variable {P : LexState → Prop} {s s' : LexState}

theorem ite {p : Bool} {a b : LexState} (ha : P a) (hb : P b) : P (if p then a else b) := by
  cases p with
  | true => exact ha
  | false => exact hb

theorem newline (h : Kept src P) (hrun : src.newline s = some s') (hs : P s) : P s' := by
  have hmove : P (s.advance 1) := h.move s _ hs
  unfold Source.newline at hrun
  dsimp only at hrun
  split at hrun
  · obtain ⟨next, -, hrun⟩ := Option.bind_eq_some_iff.1 hrun
    split at hrun
    · exact Option.some.inj hrun ▸ hmove
    · exact Option.some.inj hrun ▸ h.push _ _ _ _ ⟨by decide, by decide⟩ hmove
  · exact Option.some.inj hrun ▸ hmove

theorem lineComment (h : Kept src P) (hs : P s) : P (src.lineComment s) := by
  unfold Source.lineComment
  split
  · exact h.push _ _ _ _ ⟨by decide, by decide⟩ (h.move s _ hs)
  · exact h.move s _ hs

theorem openComment (h : Kept src P) (hrun : src.openComment s = some s') (hs : P s) : P s' := by
  unfold Source.openComment at hrun
  obtain ⟨⟨stop, depth⟩, -, hrun⟩ := Option.bind_eq_some_iff.1 hrun
  dsimp only at hrun
  split at hrun
  · exact Option.some.inj hrun ▸ h.error _ _ _ _ _ (h.move s _ hs)
  · exact Option.some.inj hrun ▸ h.move s _ hs

theorem skipTrivia (h : Kept src P) : ∀ {fuel : Nat} {s s' : LexState},
    src.skipTrivia fuel s = some s' → P s → P s' := by
  intro fuel
  induction fuel with
  | zero =>
    intro s s' hrun
    cases hrun
  | succ fuel ih =>
    intro s s' hrun hs
    unfold Source.skipTrivia at hrun
    split at hrun
    · exact Option.some.inj hrun ▸ hs
    dsimp only at hrun
    split at hrun
    · exact ih hrun (h.move s _ hs)
    split at hrun
    · obtain ⟨u, hu, hrun⟩ := Option.bind_eq_some_iff.1 hrun
      exact ih hrun (h.newline hu hs)
    split at hrun
    · exact ih hrun (h.lineComment hs)
    split at hrun
    · obtain ⟨u, hu, hrun⟩ := Option.bind_eq_some_iff.1 hrun
      exact ih hrun (h.openComment hu hs)
    · exact Option.some.inj hrun ▸ hs

theorem lexIdentifier (h : Kept src P) (hs : P s) : P (src.lexIdentifier s) := by
  refine h.push _ _ _ _ ?_ (h.move s _ hs)
  split
  · exact ⟨by decide, by decide⟩
  · exact lookupKeyword_spelled _

theorem invalidNumber (h : Kept src P) {start stop : Nat} (hs : P s) :
    P (src.invalidNumber start stop s) := h.error _ _ _ _ _ (h.move s _ hs)

theorem lexSuffix (h : Kept src P) {start pos : Nat} {isFloat : Bool} (hs : P s) :
    P (src.lexSuffix start pos isFloat s) := by
  refine h.push _ _ _ _ ?_ (h.move s _ hs)
  cases isFloat <;> exact ⟨by decide, by decide⟩

theorem lexNumber (h : Kept src P) (hs : P s) : P (src.lexNumber s) := by
  unfold Source.lexNumber
  dsimp only
  split
  · unfold Source.lexPrefixed
    dsimp only
    split
    · exact h.invalidNumber hs
    split
    · exact h.invalidNumber hs
    split
    · exact h.invalidNumber hs
    · exact h.lexSuffix hs
  · exact ite (h.invalidNumber hs) (h.lexSuffix hs)

theorem lexString (h : Kept src P) (hrun : src.lexString s = some s') (hs : P s) : P s' := by
  unfold Source.lexString at hrun
  obtain ⟨⟨stop, f⟩, -, hrun⟩ := Option.bind_eq_some_iff.1 hrun
  have hmove : P { s with pos := stop } := h.move s _ hs
  obtain rfl := Option.some.inj hrun
  split
  · exact h.error _ _ _ _ _ hmove
  split
  · exact h.error _ _ _ _ _ hmove
  · exact h.push _ _ _ _ ⟨by decide, by decide⟩ hmove

theorem lexChar (h : Kept src P) (hrun : src.lexChar s = some s') (hs : P s) : P s' := by
  unfold Source.lexChar at hrun
  obtain ⟨⟨stop, f⟩, -, hrun⟩ := Option.bind_eq_some_iff.1 hrun
  have hmove : P { s with pos := stop } := h.move s _ hs
  obtain rfl := Option.some.inj hrun
  split
  · exact h.error _ _ _ _ _ hmove
  split
  · exact h.error _ _ _ _ _ hmove
  split
  · exact h.error _ _ _ _ _ hmove
  · exact h.push _ _ _ _ ⟨by decide, by decide⟩ hmove

theorem lexSymbol (h : Kept src P) (hs : P s) : P (src.lexSymbol s) := by
  unfold Source.lexSymbol
  split
  · exact h.move _ _ (h.error _ _ _ _ _ hs)
  · next kind width hk =>
    exact h.push _ _ _ _ (symbolKind_spelled _ _ _ _ _ hk) (h.move s _ hs)

theorem lexToken (h : Kept src P) (hrun : src.lexToken s = some s') (hs : P s) : P s' := by
  unfold Source.lexToken at hrun
  dsimp only at hrun
  split at hrun
  · exact Option.some.inj hrun ▸ h.move _ _ (h.error _ _ _ _ _ hs)
  split at hrun
  · exact Option.some.inj hrun ▸ h.lexIdentifier hs
  split at hrun
  · exact Option.some.inj hrun ▸ h.lexNumber hs
  split at hrun
  · exact h.lexString hrun hs
  split at hrun
  · exact h.lexChar hrun hs
  · exact Option.some.inj hrun ▸ h.lexSymbol hs

/-- **Run rule.** -/
theorem lexTokens (h : Kept src P) : ∀ {fuel : Nat} {s s' : LexState},
    src.lexTokens fuel s = some s' → P s → P s' := by
  intro fuel
  induction fuel with
  | zero =>
    intro s s' hrun
    cases hrun
  | succ fuel ih =>
    intro s s' hrun hs
    obtain ⟨u, hu, hrun⟩ := Option.bind_eq_some_iff.1 hrun
    have hpu := h.skipTrivia hu hs
    split at hrun
    · exact Option.some.inj hrun ▸ hpu
    · obtain ⟨v, hv, hrun⟩ := Option.bind_eq_some_iff.1 hrun
      exact ih hrun (h.lexToken hv hpu)

end Kept

/-! ## Errors in step -/

/-- The spans of the error tokens, in order. -/
def errorSpans (tokens : List Token) : List Span :=
  (tokens.filter fun t => t.kind = .error).map (·.span)

/-- Where the error diagnostics point, in order. -/
def reportedSpans (bag : DiagBag) : List (Option Span) :=
  (bag.filter fun d => d.severity = .error).map (·.primarySpan)

/-- Each error token has its diagnostic, and the end is not reached. -/
structure InStep (s : LexState) : Prop where
  spans : reportedSpans s.bag = (errorSpans s.out).map some
  running : ∀ t ∈ s.out, t.kind ≠ .eof

theorem inStep_kept (src : Source) : Kept src InStep where
  move s pos h := ⟨h.spans, h.running⟩
  push s kind start length hk h := by
    refine ⟨?_, fun t ht => ?_⟩
    · rw [show (src.pushSignificant kind start length s).bag = s.bag from rfl, h.spans]
      simp [Source.pushSignificant, Source.push, errorSpans, hk.1]
    · rcases List.mem_append.1 ht with ht | ht
      · exact h.running t ht
      · rw [List.mem_singleton.1 ht]
        exact hk.2
  error s start length code message h := by
    refine ⟨?_, fun t ht => ?_⟩
    · have hspans := h.spans
      simp only [reportedSpans, errorSpans] at hspans
      simp [Source.emitError, Source.push, reportedSpans, errorSpans, emit, hspans]
    · rcases List.mem_append.1 ht with ht | ht
      · exact h.running t ht
      · rw [List.mem_singleton.1 ht]
        exact fun heq => by cases heq

/-- The lexer moves on at every step, and stops at or past the end. -/
theorem step_bounded {s s' : LexState} (_ : s.pos < src.size) (_ : True) (h : Step src s s') :
    True ∧ s'.pos ≤ src.size + 1 := by
  refine ⟨trivial, ?_⟩
  cases h with
  | skips hs =>
    have hin := hs.sync.inside
    omega
  | lexes hl =>
    rcases hl.moves with hsync | ⟨hout, -⟩
    · have hin := hsync.inside
      omega
    · omega

/-- **Lexing finishes and reports every error**: the end token is the last one and the only one of
its kind, and the error tokens are the error diagnostics, span by span. -/
theorem tokenize_reports (src : Source) : ∃ s, src.tokenize = some s ∧
    (∃ init span, s.out = init ++ [⟨.eof, span⟩] ∧ ∀ t ∈ init, t.kind ≠ .eof) ∧
    reportedSpans s.bag = (errorSpans s.out).map some := by
  obtain ⟨s, hrun, -, -⟩ := @lexTokens_spec src (fun _ => True) (fun s s' => step_bounded)
    (src.size + 2) .start trivial (Nat.zero_le _) (by simp [LexState.start])
  have hs : InStep s := by
    refine (inStep_kept src).lexTokens hrun ⟨rfl, fun t ht => ?_⟩
    cases ht
  refine ⟨src.pushSignificant .eof s.pos 0 s, by rw [Source.tokenize, hrun, Option.map_some],
    ⟨s.out, _, rfl, hs.running⟩, ?_⟩
  rw [show (src.pushSignificant .eof s.pos 0 s).bag = s.bag from rfl, hs.spans]
  simp [Source.pushSignificant, Source.push, errorSpans, List.filter_append]

end Alcy.Lexer
