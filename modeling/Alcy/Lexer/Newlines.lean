import Alcy.Lexer.Lookahead

/-! # Newlines

Whether a newline becomes a `;` is decided where it stands: by the last token that was not an error,
and by a look at the bytes that follow. The lexer keeps no count of open brackets, and what it looks
at is not always the next token.
-/
namespace Alcy.Lexer

variable {src : Source} {s s' : LexState}

/-! ## What a newline should do -/

/-- The kind of the last token. -/
def precedingKind (tokens : List Token) : TokenKind := (tokens.getLast?.map (·.kind)).getD .eof

/-- The round and square brackets that are still open, the last one first. -/
def unclosed (tokens : List Token) : List TokenKind :=
  tokens.foldl (fun opened t =>
    if t.kind = .lParen ∨ t.kind = .lBracket then t.kind :: opened
    else if t.kind = .rParen ∧ opened.head? = some .lParen then opened.tail
    else if t.kind = .rBracket ∧ opened.head? = some .lBracket then opened.tail
    else opened) []

/-- What a newline should do: nothing while a bracket is open, and outside it becomes a `;` if the
token before it ends a statement and the one after it does not continue the construct. -/
structure NewlineRight (s s' : LexState) (next : TokenKind) : Prop where
  inside : unclosed s.out ≠ [] → s'.out = s.out
  outside : unclosed s.out = [] →
    (s'.out ≠ s.out ↔ insertsSemi (precedingKind s.out) = true ∧ suppressSemi next = false)

/-- Every newline that the lexer comes to does what it should. -/
def NewlinesRight (src : Source) : Prop :=
  ∀ s s' next, Course src .start s → src.byte s.pos = ch '\n' → src.newline s = some s' →
    NextToken src s' next → NewlineRight s s' next

/-- After a token that ends a statement, a newline is right if the look ahead goes on inside brackets
and behind an error, and if outside it is not led astray: by a range, a comment without end, or what
follows a doc comment. -/
def NewlineGuarded (src : Source) (s : LexState) : Prop :=
  insertsSemi s.lastSignificant = true →
    (unclosed s.out ≠ [] ∨ precedingKind s.out = .error → LooksOn src (s.pos + 1)) ∧
    (unclosed s.out = [] → precedingKind s.out ≠ .error → ∀ i, Starts src (s.pos + 1) i →
      ¬ OpensRange src i ∧ ¬ Unfinished src i ∧
        (OpensDoc src i → ¬ LooksOn src (s.pos + 1)))

/-- The lexer remembers the last token, except for errors. -/
def Remembers (s : LexState) : Prop :=
  precedingKind s.out ≠ .error → s.lastSignificant = precedingKind s.out

theorem remembers_kept (src : Source) : Kept src Remembers where
  move s pos h := h
  push s kind start length _ _ := fun _ => by
    simp [Source.pushSignificant, Source.push, precedingKind]
  error s start length code message _ := fun hne => by
    refine absurd ?_ hne
    simp [Source.emitError, Source.push, precedingKind]

theorem newlineRight_iff {next : TokenKind} (hs : Remembers s) (hnl : src.byte s.pos = ch '\n')
    (hrun : src.newline s = some s') (hnext : NextToken src s' next) :
    NewlineRight s s' next ↔ NewlineGuarded src s := by
  have hpos : s.pos + 1 ≤ src.size := Source.lt_of_byte_ne (by rw [hnl]; decide)
  obtain ⟨hmoved, hcases⟩ := newline_cases hrun
  obtain ⟨i, hstarts, hkind⟩ := nextToken_starts hnext
  rw [hmoved] at hstarts
  have hlooks := nextToken_looksOn hpos hstarts hkind
  have hinserted : s'.out ≠ s.out ↔
      insertsSemi s.lastSignificant = true ∧ ¬ LooksOn src (s.pos + 1) := by
    obtain ⟨hinserts, hon, hout⟩ | ⟨hon, hout⟩ := hcases
    · rw [hout]
      exact ⟨fun _ => ⟨hinserts, hon⟩, fun _ => out_ne.symm⟩
    · rw [hout]
      exact ⟨fun h => absurd rfl h, fun h => absurd (hon h.1) h.2⟩
  -- behind an error no statement ends
  have herror : precedingKind s.out = .error → insertsSemi (precedingKind s.out) = false := by
    intro h
    rw [h]
    rfl
  constructor
  · rintro ⟨hinside, houtside⟩ hinserts
    refine ⟨?_, fun hopen herr j hj => ?_⟩
    · rintro (hopen | herr)
      · by_contra hon
        exact hinserted.2 ⟨hinserts, hon⟩ (hinside hopen)
      · by_contra hon
        have hne := hinserted.2 ⟨hinserts, hon⟩
        by_cases hopen : unclosed s.out = []
        · rw [houtside hopen, herror herr] at hne
          exact absurd hne.1 (by decide)
        · exact hne (hinside hopen)
    · obtain rfl := hstarts.unique hj
      rw [← hlooks]
      have h := houtside hopen
      rw [hinserted, ← hs herr, and_iff_right hinserts, and_iff_right hinserts] at h
      rw [← Bool.not_eq_false, ← h, not_not]
  · intro hguard
    refine ⟨fun hopen => ?_, fun hopen => ?_⟩
    · by_contra hne
      obtain ⟨hinserts, hon⟩ := hinserted.1 hne
      exact hon ((hguard hinserts).1 (.inl hopen))
    · rw [hinserted]
      by_cases herr : precedingKind s.out = .error
      · rw [herror herr]
        constructor
        · rintro ⟨hinserts, hon⟩
          exact absurd ((hguard hinserts).1 (.inr herr)) hon
        · rintro ⟨h, -⟩
          cases h
      · rw [hs herr]
        refine and_congr_right fun hinserts => ?_
        have hremembered : insertsSemi s.lastSignificant = true := by rw [hs herr, hinserts]
        rw [← hlooks.2 ((hguard hremembered).2 hopen herr i hstarts), Bool.not_eq_true]

/-- **When newlines are right**: at every newline that the lexer comes to, the look ahead decides what
it should. -/
theorem newlinesRight_iff (src : Source) : NewlinesRight src ↔
    ∀ s, Course src .start s → src.byte s.pos = ch '\n' → NewlineGuarded src s := by
  have hremembers : ∀ s, Course src .start s → Remembers s := fun s hs =>
    (remembers_kept src).course hs fun _ => rfl
  constructor
  · intro h s hs hnl
    obtain ⟨s', hrun, -⟩ := newline_step hnl
    obtain ⟨next, hnext⟩ := nextToken_total src _ s' (Nat.le_refl _)
    exact (newlineRight_iff (hremembers s hs) hnl hrun hnext).1 (h s s' next hs hnl hrun hnext)
  · intro h s s' next hs hnl hrun hnext
    exact (newlineRight_iff (hremembers s hs) hnl hrun hnext).2 (h s hs hnl)

/-- `foo(a` and `b)` on two lines -/
def splitCall : Source := ⟨bytesOf "foo(a\nb)", 0⟩

/-- The newline inside the parentheses becomes a `;`. -/
theorem splitCall_not_right : ¬ NewlinesRight splitCall ∧
    splitCall.tokenize.map (fun s => s.out.map (·.kind)) =
      some [.ident, .lParen, .ident, .semicolon, .ident, .rParen, .eof] := by
  refine ⟨fun h => ?_, by decide⟩
  have hrun : ((splitCall.rounds 3 .start).bind fun s => (splitCall.newline s).map fun s' =>
      (splitCall.byte s.pos, unclosed s.out, s'.out.length, s.out.length)) =
      some (ch '\n', [.lParen], 4, 3) := by decide
  obtain ⟨s, hs, hrun⟩ := Option.bind_eq_some_iff.1 hrun
  obtain ⟨s', hs', hfacts⟩ := Option.map_eq_some_iff.1 hrun
  simp only [Prod.mk.injEq] at hfacts
  obtain ⟨hnl, hopen, hafter, hbefore⟩ := hfacts
  obtain ⟨next, hnext⟩ := nextToken_total splitCall _ s' (Nat.le_refl _)
  have hsame := (h s s' next (rounds_course hs) hnl hs' hnext).inside (by rw [hopen]; decide)
  rw [hsame, hbefore] at hafter
  cases hafter

end Alcy.Lexer
