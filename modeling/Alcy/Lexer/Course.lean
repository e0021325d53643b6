import Alcy.Lexer.Errors

/-! # The course of the lexer

The two loops of the lexer as one: a round passes over a blank, a newline or a comment, or makes a
token. What every token keeps, the course keeps.
-/
namespace Alcy.Lexer
open Source (isBlank)

variable {src : Source} {s s' u : LexState}

/-! ## Rounds -/

/-- One round of the loop of `skip_trivia`, or the token after it. -/
def Source.round (src : Source) (s : LexState) : Option LexState :=
  let c := src.byte s.pos
  if isBlank c then some (s.advance 1)
  else if c == ch '\n' then src.newline s
  else if c == ch '/' && src.byte (s.pos + 1) == ch '/' then some (src.lineComment s)
  else if c == ch '/' && src.byte (s.pos + 1) == ch '*' then src.openComment s
  else src.lexToken s

/-- The states that the lexer goes through. -/
inductive Course (src : Source) : LexState → LexState → Prop where
  | refl (s : LexState) : Course src s s
  | step {s u s' : LexState} : src.atEnd s.pos = false → src.round s = some u → Course src u s' →
      Course src s s'

/-- That many rounds. -/
def Source.rounds (src : Source) : Nat → LexState → Option LexState
  | 0, s => some s
  | n + 1, s => if src.atEnd s.pos then none else (src.round s).bind (rounds src n)

theorem rounds_course : ∀ {n : Nat} {s s' : LexState}, src.rounds n s = some s' →
    Course src s s' := by
  intro n
  induction n with
  | zero =>
    intro s s' h
    rw [← Option.some.inj h]
    exact .refl s
  | succ n ih =>
    intro s s' h
    rw [Source.rounds] at h
    split at h
    · cases h
    · next hend =>
      obtain ⟨u, hu, h⟩ := Option.bind_eq_some_iff.1 h
      exact .step (by simpa using hend) hu (ih h)

theorem Course.trans (h : Course src s u) (k : Course src u s') : Course src s s' := by
  induction h with
  | refl => exact k
  | step hin hrun _ ih => exact .step hin hrun (ih k)

theorem skipTrivia_course : ∀ {fuel : Nat} {s s' : LexState}, src.skipTrivia fuel s = some s' →
    Course src s s' ∧ (src.atEnd s'.pos = false → src.round s' = src.lexToken s') := by
  intro fuel
  induction fuel with
  | zero =>
    intro s s' hrun
    cases hrun
  | succ fuel ih =>
    intro s s' hrun
    have hnext : ∀ {u : LexState}, src.atEnd s.pos = false → src.round s = some u →
        src.skipTrivia fuel u = some s' →
        Course src s s' ∧ (src.atEnd s'.pos = false → src.round s' = src.lexToken s') := by
      intro u hin hround hu
      exact ⟨.step hin hround (ih hu).1, (ih hu).2⟩
    unfold Source.skipTrivia at hrun
    by_cases hend : src.atEnd s.pos = true
    · rw [if_pos hend, Option.some.injEq] at hrun
      rw [← hrun]
      exact ⟨.refl s, fun hin => by rw [hend] at hin; cases hin⟩
    rw [if_neg hend] at hrun
    rw [Bool.not_eq_true] at hend
    dsimp only at hrun
    by_cases hblank : isBlank (src.byte s.pos) = true
    · rw [if_pos hblank] at hrun
      exact hnext hend (by rw [Source.round, if_pos hblank]) hrun
    rw [if_neg hblank] at hrun
    by_cases hnl : (src.byte s.pos == ch '\n') = true
    · rw [if_pos hnl] at hrun
      obtain ⟨u, hu, hrun⟩ := Option.bind_eq_some_iff.1 hrun
      exact hnext hend (by rw [Source.round, if_neg hblank, if_pos hnl, hu]) hrun
    rw [if_neg hnl] at hrun
    by_cases hline : (src.byte s.pos == ch '/' && src.byte (s.pos + 1) == ch '/') = true
    · rw [if_pos hline] at hrun
      exact hnext hend (by rw [Source.round, if_neg hblank, if_neg hnl, if_pos hline]) hrun
    rw [if_neg hline] at hrun
    by_cases hblock : (src.byte s.pos == ch '/' && src.byte (s.pos + 1) == ch '*') = true
    · rw [if_pos hblock] at hrun
      obtain ⟨u, hu, hrun⟩ := Option.bind_eq_some_iff.1 hrun
      exact hnext hend (by rw [Source.round, if_neg hblank, if_neg hnl, if_neg hline, if_pos hblock,
        hu]) hrun
    · rw [if_neg hblock, Option.some.injEq] at hrun
      rw [← hrun]
      exact ⟨.refl s, fun _ => by rw [Source.round, if_neg hblank, if_neg hnl, if_neg hline,
        if_neg hblock]⟩

theorem lexTokens_course : ∀ {fuel : Nat} {s s' : LexState}, src.lexTokens fuel s = some s' →
    Course src s s' ∧ src.atEnd s'.pos = true := by
  intro fuel
  induction fuel with
  | zero =>
    intro s s' hrun
    cases hrun
  | succ fuel ih =>
    intro s s' hrun
    obtain ⟨u, hu, hrun⟩ := Option.bind_eq_some_iff.1 hrun
    obtain ⟨hcourse, hround⟩ := skipTrivia_course hu
    split at hrun
    · next hend =>
      rw [← Option.some.inj hrun]
      exact ⟨hcourse, hend⟩
    · next hend =>
      rw [Bool.not_eq_true] at hend
      obtain ⟨v, hv, hrun⟩ := Option.bind_eq_some_iff.1 hrun
      obtain ⟨hrest, hstop⟩ := ih hrun
      exact ⟨hcourse.trans (.step hend ((hround hend).trans hv) hrest), hstop⟩

/-- Before the end the lexer has one way to go. -/
theorem Course.ahead (h : Course src s u) (k : Course src s s') (hend : src.atEnd s'.pos = true) :
    Course src u s' := by
  induction h with
  | refl => exact k
  | step hin hrun _ ih =>
    cases k with
    | refl =>
      rw [hend] at hin
      cases hin
    | step _ hrun' k' =>
      rw [hrun, Option.some.injEq] at hrun'
      exact ih (hrun' ▸ k')

/-- The look ahead finds what continues the construct. -/
def LooksOn (src : Source) (pos : Nat) : Prop :=
  ∃ kind, src.peekNextKind pos = some kind ∧ suppressSemi kind = true

/-- What a newline does. -/
theorem newline_cases (hrun : src.newline s = some s') : s'.pos = s.pos + 1 ∧
    (insertsSemi s.lastSignificant = true ∧ ¬ LooksOn src (s.pos + 1) ∧
        s'.out = s.out ++ [⟨.semicolon, src.spanAt s.pos 1⟩] ∨
      (insertsSemi s.lastSignificant = true → LooksOn src (s.pos + 1)) ∧ s'.out = s.out) := by
  unfold Source.newline at hrun
  dsimp only at hrun
  by_cases hinserts : insertsSemi s.lastSignificant = true
  · rw [if_pos hinserts] at hrun
    obtain ⟨next, hnext, hrun⟩ := Option.bind_eq_some_iff.1 hrun
    by_cases hon : suppressSemi next = true
    · rw [if_pos hon] at hrun
      rw [← Option.some.inj hrun]
      exact ⟨rfl, .inr ⟨fun _ => ⟨next, hnext, hon⟩, rfl⟩⟩
    · rw [if_neg hon] at hrun
      rw [← Option.some.inj hrun]
      refine ⟨rfl, .inl ⟨hinserts, ?_, rfl⟩⟩
      rintro ⟨kind, hkind, hk⟩
      obtain rfl : kind = next := Option.some.inj (hkind.symm.trans hnext)
      exact hon hk
  · rw [if_neg hinserts] at hrun
    rw [← Option.some.inj hrun]
    exact ⟨rfl, .inr ⟨fun h => absurd h hinserts, rfl⟩⟩

theorem Kept.round {P : LexState → Prop} (h : Kept src P) (hrun : src.round s = some s')
    (hs : P s) : P s' := by
  unfold Source.round at hrun
  dsimp only at hrun
  split at hrun
  · exact Option.some.inj hrun ▸ h.move s _ hs
  split at hrun
  · exact h.newline hrun hs
  split at hrun
  · exact Option.some.inj hrun ▸ h.lineComment hs
  split at hrun
  · exact h.openComment hrun hs
  · exact h.lexToken hrun hs

theorem Kept.course {P : LexState → Prop} (h : Kept src P) (hc : Course src s s') (hs : P s) :
    P s' := by
  induction hc with
  | refl => exact hs
  | step _ hrun _ ih => exact ih (h.round hrun hs)

theorem round_grows (hrun : src.round s = some s') : s.out <+: s'.out := by
  have hkept : Kept src fun t => s.out <+: t.out := by
    refine ⟨fun t pos h => h, fun t kind start length _ h => ?_, fun t start length code message h => ?_⟩
    · exact h.trans (List.prefix_append _ _)
    · exact h.trans (List.prefix_append _ _)
  exact hkept.round hrun (List.prefix_refl _)

theorem Course.grows (h : Course src s s') : s.out <+: s'.out := by
  induction h with
  | refl => exact List.prefix_refl _
  | step _ hrun _ ih => exact (round_grows hrun).trans ih

/-- The states that the lexer goes through, up to the tokens that it gives. -/
theorem tokenize_course {t : LexState} (h : src.tokenize = some t) :
    ∃ e, Course src .start e ∧ src.atEnd e.pos = true ∧ t = src.pushSignificant .eof e.pos 0 e ∧
      ∀ s, Course src .start s → Course src s e ∧ s.out <+: t.out := by
  obtain ⟨e, he, rfl⟩ := Option.map_eq_some_iff.1 h
  obtain ⟨hcourse, hend⟩ := lexTokens_course he
  refine ⟨e, hcourse, hend, rfl, fun s hs => ?_⟩
  have hrest := hs.ahead hcourse hend
  exact ⟨hrest, hrest.grows.trans (List.prefix_append _ _)⟩

end Alcy.Lexer
