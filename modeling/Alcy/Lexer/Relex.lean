import Alcy.Lexer.DocComments
import Alcy.Lexer.Literals
import Alcy.Lexer.Lossless
import Alcy.Lexer.Numbers

/-! # Lexing the spelled tokens again

The spellings of the tokens, with a blank behind each, lex to the same tokens: neither the kind nor
the extent of a token depends on what follows it.
-/
namespace Alcy.Lexer
open Source (symbolKind isDigitOrUnderscore inBase)

variable {src src' : Source} {s s' u : LexState} {pos pos' n : Nat} {kind : TokenKind}
  {gap : UInt8}

/-! ## Copies of a text -/

/-- The text of `n` bytes at `pos` stands at `pos'` of the other source, with a gap behind it. -/
structure Copied (src src' : Source) (pos pos' n : Nat) (gap : UInt8) : Prop where
  inside : pos + n ≤ src.size
  text : src'.TextAt pos' (src.slice pos (pos + n) ++ [gap])

theorem Copied.length (h : Copied src src' pos pos' n gap) :
    (src.slice pos (pos + n)).length = n := by
  rw [Source.slice_length h.inside, Nat.add_sub_cancel_left]

theorem Copied.slice (h : Copied src src' pos pos' n gap) :
    src'.slice pos' (pos' + n) = src.slice pos (pos + n) := by
  have hslice := (Source.textAt_append.mp h.text).1.slice
  rwa [h.length] at hslice

theorem Copied.byte (h : Copied src src' pos pos' n gap) {i : Nat} (hi : i < n) :
    src'.byte (pos' + i) = src.byte (pos + i) := by
  have hinside := h.inside
  obtain ⟨htext, -⟩ := Source.textAt_append.mp h.text
  rw [← Source.slice_append (show pos ≤ pos + i by omega) (show pos + i ≤ pos + n by omega),
    Source.slice_cons (show pos + i < pos + n by omega) hinside] at htext
  obtain ⟨-, hrest⟩ := Source.textAt_append.mp htext
  rw [Source.slice_length (by omega), Nat.add_sub_cancel_left] at hrest
  exact (Source.textAt_cons.mp hrest).2.1

theorem Copied.first (h : Copied src src' pos pos' n gap) (hn : 0 < n) :
    src'.byte pos' = src.byte pos := h.byte hn

theorem Copied.gap_at (h : Copied src src' pos pos' n gap) :
    pos' + n < src'.size ∧ src'.byte (pos' + n) = gap := by
  obtain ⟨-, hgap⟩ := Source.textAt_append.mp h.text
  rw [h.length] at hgap
  obtain ⟨hlt, hbyte, -⟩ := Source.textAt_cons.mp hgap
  exact ⟨hlt, hbyte⟩

/-- A scan that stays in the text goes as far in its copy. -/
theorem Copied.skipWhile (h : Copied src src' pos pos' n gap) {p : UInt8 → Bool}
    (hgap : p gap = false) {i : Nat} (hi : i ≤ n) (hstop : src.skipWhile p (pos + i) ≤ pos + n) :
    ∃ j, i ≤ j ∧ j ≤ n ∧ src.skipWhile p (pos + i) = pos + j ∧
      src'.skipWhile p (pos' + i) = pos' + j := by
  have hinside := h.inside
  obtain ⟨hlt, hbyte⟩ := h.gap_at
  obtain ⟨k, hk⟩ : ∃ k, n - i = k := ⟨_, rfl⟩
  induction k generalizing i with
  | zero =>
    obtain rfl : i = n := by omega
    have hle := src.le_skipWhile p (pos + i)
    exact ⟨i, Nat.le_refl i, Nat.le_refl i, by omega,
      Source.skipWhile_of_not fun _ => by rw [hbyte, hgap]⟩
  | succ k ih =>
    have hin : i < n := by omega
    cases hp : p (src.byte (pos + i)) with
    | false =>
      exact ⟨i, Nat.le_refl i, hi, Source.skipWhile_of_not fun _ => hp,
        Source.skipWhile_of_not fun _ => by rw [h.byte hin, hp]⟩
    | true =>
      have hsrc : src.skipWhile p (pos + i) = src.skipWhile p (pos + (i + 1)) :=
        Source.skipWhile_of_pos (by omega) hp
      have hcopy : src'.skipWhile p (pos' + i) = src'.skipWhile p (pos' + (i + 1)) :=
        Source.skipWhile_of_pos (by omega) (by rw [h.byte hin, hp])
      rw [hsrc] at hstop ⊢
      rw [hcopy]
      obtain ⟨j, h1, h2, h3, h4⟩ := ih (by omega) hstop (by omega)
      exact ⟨j, by omega, h2, h3, h4⟩

/-- The scan that ends the text ends its copy. -/
theorem Copied.scan (h : Copied src src' pos pos' n gap) {p : UInt8 → Bool}
    (hgap : p gap = false) {i : Nat} (hi : i ≤ n) (hstop : src.skipWhile p (pos + i) = pos + n) :
    src'.skipWhile p (pos' + i) = pos' + n := by
  obtain ⟨j, -, -, h1, h2⟩ := h.skipWhile hgap hi (Nat.le_of_eq hstop)
  rw [h2]
  omega

/-! ## Words -/

theorem Copied.lexIdentifier (h : Copied src src' s.pos s'.pos n (ch ' ')) {kind : TokenKind}
    (hrun : src.lexIdentifier s =
      src.pushSignificant kind s.pos n { s with pos := s.pos + n }) :
    src'.lexIdentifier s' = src'.pushSignificant kind s'.pos n { s' with pos := s'.pos + n } := by
  have hstop : src.skipWhile isAlnumOrUnderscore s.pos = s.pos + n :=
    congrArg LexState.pos hrun
  have hstop' := h.scan (i := 0) (by decide) (Nat.zero_le n) hstop
  have hkind := congrArg LexState.lastSignificant hrun
  simp only [Source.lexIdentifier, Source.pushSignificant, hstop] at hkind
  rw [Nat.add_zero] at hstop'
  simp only [Source.lexIdentifier, hstop', h.slice, hkind, Nat.add_sub_cancel_left]

/-! ## Numbers -/

theorem bodyEnd_le (h : isDigit (src.byte pos) = true) : src.bodyEnd pos ≤ src.size := by
  cases hp : src.hasPrefix pos with
  | true =>
    exact (hasPrefix_bounds (s := { LexState.start with pos := pos }) hp).2.2.2
  | false =>
    have hparts := decimalParts hp h
    have hin : pos < src.size := Source.lt_of_byte_ne (digit_facts h).1
    have hwhole : src.wholeEnd pos ≤ src.size := Source.skipWhile_le (Nat.le_of_lt hin)
    cases he : src.hasExponent pos with
    | true =>
      obtain ⟨hdigit, -, hend⟩ := hparts.exponent he
      rw [hend]
      exact Source.skipWhile_le (Nat.le_of_lt (Source.lt_of_byte_ne (digit_facts hdigit).1))
    | false =>
      rw [hparts.plain he]
      cases hf : src.hasFraction pos with
      | true =>
        rw [Source.mantissaEnd, if_pos hf]
        rw [Source.hasFraction, Bool.and_eq_true, beq_iff_eq] at hf
        exact Source.skipWhile_le (Source.lt_of_byte_ne (by rw [hf.1]; decide))
      | false =>
        rw [hparts.noFraction hf]
        exact hwhole

theorem lt_bodyEnd (h : isDigit (src.byte pos) = true) : pos < src.bodyEnd pos := by
  cases hp : src.hasPrefix pos with
  | true =>
    obtain ⟨-, -, hlow, -⟩ := hasPrefix_bounds (s := { LexState.start with pos := pos }) hp
    dsimp only at hlow
    omega
  | false =>
    have hparts := decimalParts hp h
    exact Nat.lt_of_lt_of_le hparts.whole (Nat.le_trans hparts.mantissa hparts.body)

/-- Behind the body of a number goes the word there, to its end. -/
theorem lexNumber_eq (h : isDigit (src.byte s.pos) = true) (ha : Accepted src s.pos) :
    src.lexNumber s = src.pushSignificant
      (if !src.hasPrefix s.pos && (src.decimalEnd s.pos).2 then .float else .integer) s.pos
      (src.skipWhile isAlnumOrUnderscore (src.bodyEnd s.pos) - s.pos)
      { s with pos := src.skipWhile isAlnumOrUnderscore (src.bodyEnd s.pos) } := by
  have hsuffix {stop : Nat} {isFloat : Bool}
      (hstop : (src.lexSuffix s.pos stop isFloat s).pos =
        src.skipWhile isAlnumOrUnderscore (src.bodyEnd s.pos)) :
      src.lexSuffix s.pos stop isFloat s = src.pushSignificant
        (if isFloat then .float else .integer) s.pos
        (src.skipWhile isAlnumOrUnderscore (src.bodyEnd s.pos) - s.pos)
        { s with pos := src.skipWhile isAlnumOrUnderscore (src.bodyEnd s.pos) } := by
    rw [← hstop]
    rfl
  rw [lexNumber_accepted h ha]
  cases hp : src.hasPrefix s.pos with
  | true =>
    rw [if_pos rfl]
    have hfails := @Source.skipWhile_fails src isAlnumOrUnderscore (by decide) (src.bodyEnd s.pos)
    rw [isAlnumOrUnderscore, Bool.or_eq_false_iff, Bool.or_eq_false_iff] at hfails
    exact hsuffix (lexSuffix_end hfails.1.1 (by simpa using hfails.2))
  | false =>
    rw [if_neg (by decide)]
    refine hsuffix ?_
    show (if _ then _ else _) = _
    have hdigit := not_digit_bodyEnd hp
    rw [isDigitOrUnderscore, Bool.or_eq_false_iff] at hdigit
    by_cases halpha : isAlpha (src.byte (src.bodyEnd s.pos)) = true
    · have hlt : src.bodyEnd s.pos < src.size := Source.lt_of_byte_ne fun h0 => by
        rw [h0] at halpha
        exact absurd halpha (by decide)
      rw [if_pos (by simp [halpha, hlt]),
        Source.skipWhile_of_pos hlt (by simp [isAlnumOrUnderscore, halpha])]
    · rw [Bool.not_eq_true] at halpha
      rw [if_neg (by simp [halpha, hdigit.2]),
        Source.skipWhile_of_not fun _ => by simp [isAlnumOrUnderscore, halpha, hdigit.1, hdigit.2]]

/-- The text is a number with its suffix, and a blank stands behind its copy. -/
structure CopiedNumber (src src' : Source) (pos pos' n : Nat) : Prop
    extends Copied src src' pos pos' n (ch ' ') where
  digit : isDigit (src.byte pos) = true
  word : src.skipWhile isAlnumOrUnderscore (src.bodyEnd pos) = pos + n

theorem CopiedNumber.body_le (h : CopiedNumber src src' pos pos' n) : src.bodyEnd pos ≤ pos + n :=
  h.word ▸ src.le_skipWhile _ _

/-- Behind the body, the text goes on with letters, digits and underscores. -/
theorem CopiedNumber.alnum (h : CopiedNumber src src' pos pos' n) {i : Nat}
    (hbody : src.bodyEnd pos ≤ pos + i) (hi : i < n) :
    isAlnumOrUnderscore (src.byte (pos + i)) = true :=
  Source.skipWhile_all (pos + i) hbody (by rw [h.word]; omega)

theorem CopiedNumber.hasPrefix (h : CopiedNumber src src' pos pos' n) :
    src'.hasPrefix pos' = src.hasPrefix pos := by
  have hle := h.body_le
  cases hp : src.hasPrefix pos with
  | true =>
    obtain ⟨-, -, hbody, -⟩ := hasPrefix_bounds (s := { LexState.start with pos := pos }) hp
    have hbody : pos + 2 ≤ src.bodyEnd pos := hbody
    have h0 := h.first (by omega)
    have h1 := h.byte (i := 1) (by omega)
    rw [← hp, Source.hasPrefix, h0, h1]
    rfl
  | false =>
    have hlt := lt_bodyEnd h.digit
    have h0 := h.first (by omega)
    obtain hone | hmore := Nat.lt_or_ge 1 n
    · rw [← hp, Source.hasPrefix, h0, h.byte hone]
      rfl
    · have hblank := h.gap_at.2
      rw [show n = 1 by omega] at hblank
      rw [Source.hasPrefix, hblank, Bool.and_eq_false_iff]
      exact .inr (by decide)

/-- The integer part ends in the copy where it ends in the text, and a fraction follows in both or
in neither. -/
theorem CopiedNumber.whole (h : CopiedNumber src src' pos pos' n)
    (hp : src.hasPrefix pos = false) : ∃ a ≤ n, src.wholeEnd pos = pos + a ∧
      src'.wholeEnd pos' = pos' + a ∧ src'.hasFraction pos' = src.hasFraction pos := by
  have hparts := decimalParts hp h.digit
  have hle := h.body_le
  have hbody : src.wholeEnd pos ≤ pos + n := by
    have h1 := hparts.mantissa
    have h2 := hparts.body
    omega
  obtain ⟨a, -, ha, hwhole, hwhole'⟩ := h.skipWhile (p := isDigitOrUnderscore) (i := 0) (by decide)
    (Nat.zero_le n) hbody
  have hwhole : src.wholeEnd pos = pos + a := hwhole
  have hwhole' : src'.wholeEnd pos' = pos' + a := hwhole'
  refine ⟨a, ha, hwhole, hwhole', ?_⟩
  cases hf : src.hasFraction pos with
  | true =>
    -- the point belongs to the text; the byte behind it is no point, or the blank
    have hlt : a < n := by
      have h1 := hparts.fraction hf
      have h2 := hparts.body
      omega
    rw [Source.hasFraction, hwhole, Bool.and_eq_true] at hf
    rw [Source.hasFraction, hwhole', h.byte hlt, hf.1, Bool.true_and]
    obtain hnext | hend := Nat.lt_or_ge (a + 1) n
    · rw [Nat.add_assoc, h.byte hnext]
      exact hf.2
    · rw [Nat.add_assoc, show a + 1 = n by omega, h.gap_at.2]
      decide
  | false =>
    obtain hlt | hend := Nat.lt_or_ge a n
    · have hplain : (src.byte (pos + a) == ch '.') = false := by
        by_contra hdot
        rw [Bool.not_eq_false, beq_iff_eq] at hdot
        have hmantissa : src.mantissaEnd pos = pos + a := (hparts.noFraction hf).trans hwhole
        have hnone : src.hasExponent pos = false := by
          rw [Source.hasExponent, hmantissa, hdot]
          rfl
        have halnum := h.alnum (Nat.le_of_eq ((hparts.plain hnone).trans hmantissa)) hlt
        rw [hdot] at halnum
        exact absurd halnum (by decide)
      rw [Source.hasFraction, hwhole', h.byte hlt, hplain, Bool.false_and]
    · rw [Source.hasFraction, hwhole', show a = n by omega, h.gap_at.2]
      rfl

theorem CopiedNumber.mantissa (h : CopiedNumber src src' pos pos' n)
    (hp : src.hasPrefix pos = false) : ∃ b ≤ n, src.mantissaEnd pos = pos + b ∧
      src'.mantissaEnd pos' = pos' + b := by
  have hparts := decimalParts hp h.digit
  have hle := h.body_le
  have hbody := hparts.body
  obtain ⟨a, ha, hwhole, hwhole', hfraction⟩ := h.whole hp
  unfold Source.mantissaEnd at hbody ⊢
  rw [hfraction, hwhole, hwhole']
  rw [hwhole] at hbody
  cases hf : src.hasFraction pos with
  | true =>
    have hlt := hparts.fraction hf
    have hend := hparts.body
    rw [hf, if_pos rfl] at hbody
    obtain ⟨b, -, hb, h1, h2⟩ := h.skipWhile (p := isDigitOrUnderscore) (i := a + 1) (by decide)
      (by omega) (by rw [← Nat.add_assoc]; omega)
    exact ⟨b, hb, h1, h2⟩
  | false => exact ⟨a, ha, rfl, rfl⟩

/-- An exponent starts in the copy where it starts in the text. -/
theorem CopiedNumber.exponent (h : CopiedNumber src src' pos pos' n)
    (hp : src.hasPrefix pos = false) : src'.hasExponent pos' = src.hasExponent pos ∧
      (src.hasExponent pos = true → ∃ c ≤ n, src.exponentStart pos = pos + c ∧
        src'.exponentStart pos' = pos' + c) := by
  have hparts := decimalParts hp h.digit
  have hle := h.body_le
  obtain ⟨b, hb, hmantissa, hmantissa'⟩ := h.mantissa hp
  cases he : src.hasExponent pos with
  | true =>
    obtain ⟨-, hstart, -⟩ := hparts.exponent he
    -- the digits of the exponent belong to the text, and so does what stands before them
    have hsigned : b + 1 < n → src'.isSigned pos' = src.isSigned pos := by
      intro hlt
      rw [Source.isSigned, Source.isSigned, hmantissa, hmantissa', Nat.add_assoc, Nat.add_assoc,
        h.byte hlt]
    cases hs : src.isSigned pos with
    | true =>
      rw [Source.exponentStart, hs, if_pos rfl, hmantissa] at hstart
      rw [hs] at hsigned
      refine ⟨?_, fun _ => ⟨b + 2, by omega, ?_, ?_⟩⟩
      · rw [← he, Source.hasExponent, Source.hasExponent, hsigned (by omega), hs, hmantissa,
          hmantissa', Nat.add_assoc, Nat.add_assoc, Nat.add_assoc, Nat.add_assoc,
          h.byte (show b < n by omega), h.byte (show b + 1 < n by omega),
          h.byte (show b + 2 < n by omega)]
      · rw [Source.exponentStart, hs, if_pos rfl, hmantissa, Nat.add_assoc]
      · rw [Source.exponentStart, hsigned (by omega), if_pos rfl, hmantissa', Nat.add_assoc]
    | false =>
      rw [Source.exponentStart, hs, if_neg (by decide), hmantissa] at hstart
      rw [hs] at hsigned
      refine ⟨?_, fun _ => ⟨b + 1, by omega, ?_, ?_⟩⟩
      · rw [← he, Source.hasExponent, Source.hasExponent, hsigned (by omega), hs, hmantissa,
          hmantissa', Nat.add_assoc, Nat.add_assoc, h.byte (show b < n by omega),
          h.byte (show b + 1 < n by omega), Bool.false_and, Bool.false_and, Nat.add_assoc]
      · rw [Source.exponentStart, hs, if_neg (by decide), hmantissa, Nat.add_assoc]
      · rw [Source.exponentStart, hsigned (by omega), if_neg (by decide), hmantissa', Nat.add_assoc]
  | false =>
    refine ⟨?_, fun hno => absurd hno Bool.false_ne_true⟩
    have hend := (hparts.plain he).trans hmantissa
    rw [Source.hasExponent, hmantissa', Bool.and_eq_false_iff]
    obtain hlt | hge := Nat.lt_or_ge b n
    swap
    · rw [show b = n by omega, h.gap_at.2]
      exact .inl (by decide)
    rw [h.byte hlt]
    cases hletter : src.byte (pos + b) == ch 'e' || src.byte (pos + b) == ch 'E' with
    | false => exact .inl rfl
    | true =>
      -- the letter starts the suffix, so that no sign stands behind it in the text
      rw [Source.hasExponent, hmantissa, hletter, Bool.true_and, Bool.or_eq_false_iff] at he
      right
      rw [Source.isSigned, hmantissa', Nat.add_assoc]
      obtain hnext | hlast := Nat.lt_or_ge (b + 1) n
      · have halnum := h.alnum (show src.bodyEnd pos ≤ pos + (b + 1) by omega) hnext
        have hnosign : (src.byte (pos + (b + 1)) == ch '+' ||
            src.byte (pos + (b + 1)) == ch '-') = false := by
          by_contra hsign
          rw [Bool.not_eq_false, Bool.or_eq_true, beq_iff_eq, beq_iff_eq] at hsign
          obtain hsign | hsign := hsign
          · rw [hsign] at halnum
            exact absurd halnum (by decide)
          · rw [hsign] at halnum
            exact absurd halnum (by decide)
        rw [Nat.add_assoc] at he
        rw [h.byte hnext, he.1, hnosign, Bool.false_and]
        rfl
      · rw [show b + 1 = n by omega, h.gap_at.2]
        rfl

/-- The body ends in the copy where it ends in the text. -/
theorem CopiedNumber.body (h : CopiedNumber src src' pos pos' n) :
    ∃ c ≤ n, src.bodyEnd pos = pos + c ∧ src'.bodyEnd pos' = pos' + c := by
  have hle := h.body_le
  have hprefix := h.hasPrefix
  cases hp : src.hasPrefix pos with
  | true =>
    rw [hp] at hprefix
    obtain ⟨-, hbody, hlow, -⟩ := hasPrefix_bounds (s := { LexState.start with pos := pos }) hp
    obtain ⟨-, hbody', -, -⟩ := hasPrefix_bounds (s := { LexState.start with pos := pos' }) hprefix
    dsimp only at hbody hbody' hlow
    rw [h.byte (show 1 < n by omega)] at hbody'
    rw [hbody] at hle
    obtain ⟨c, -, hc, h1, h2⟩ := h.skipWhile (i := 2) (inBase_space (src.byte (pos + 1)))
      (by omega) hle
    exact ⟨c, hc, hbody.trans h1, hbody'.trans h2⟩
  | false =>
    rw [hp] at hprefix
    obtain ⟨hexponent, hstarts⟩ := h.exponent hp
    rw [Source.bodyEnd, Source.bodyEnd, hp, hprefix, if_neg (by decide), if_neg (by decide),
      Source.decimalEnd_eq, Source.decimalEnd_eq, hexponent]
    rw [Source.bodyEnd, hp, if_neg (by decide), Source.decimalEnd_eq] at hle
    cases he : src.hasExponent pos with
    | true =>
      obtain ⟨c, hc, h1, h2⟩ := hstarts he
      rw [he] at hle
      simp only [if_true, h1, h2] at hle ⊢
      obtain ⟨j, -, hj, h3, h4⟩ := h.skipWhile (p := isDigitOrUnderscore) (by decide) hc hle
      exact ⟨j, hj, h3, h4⟩
    | false => exact h.mantissa hp

theorem CopiedNumber.isFloat (h : CopiedNumber src src' pos pos' n)
    (hp : src.hasPrefix pos = false) : (src'.decimalEnd pos').2 = (src.decimalEnd pos).2 := by
  obtain ⟨a, -, -, -, hfraction⟩ := h.whole hp
  rw [Source.decimalEnd_eq, Source.decimalEnd_eq, (h.exponent hp).1, hfraction]

theorem CopiedNumber.digit_copy (h : CopiedNumber src src' pos pos' n) :
    isDigit (src'.byte pos') = true := by
  have hlt := lt_bodyEnd h.digit
  have hle := h.body_le
  rw [h.first (by omega)]
  exact h.digit

/-- What `lex_number` takes, it takes again. -/
theorem CopiedNumber.accepted (h : CopiedNumber src src' pos pos' n) (ha : Accepted src pos) :
    Accepted src' pos' := by
  obtain ⟨c, hc, hbody, hbody'⟩ := h.body
  have hstart : ∃ k ≤ c, src.digitsStart pos = pos + k ∧ src'.digitsStart pos' = pos' + k := by
    rw [Source.digitsStart, Source.digitsStart, h.hasPrefix]
    cases hp : src.hasPrefix pos with
    | true =>
      obtain ⟨-, -, hlow, -⟩ := hasPrefix_bounds (s := { LexState.start with pos := pos }) hp
      dsimp only at hlow
      exact ⟨2, by omega, rfl, rfl⟩
    | false => exact ⟨0, Nat.zero_le c, rfl, rfl⟩
  obtain ⟨k, hk, hstart, hstart'⟩ := hstart
  obtain ⟨i, h1, h2, h3⟩ := ha.digit
  have hdangling := ha.dangling
  have hlast := ha.last
  rw [hstart] at h1
  rw [hbody] at h2 hdangling hlast
  obtain ⟨j, rfl⟩ : ∃ j, i = pos + j := ⟨i - pos, by omega⟩
  have hsame := h.byte (show j < n by omega)
  have hbefore := h.byte (show c - 1 < n by omega)
  rw [← Nat.add_sub_assoc (by omega), ← Nat.add_sub_assoc (by omega)] at hbefore
  obtain hlt | hend := Nat.lt_or_ge c n
  · have hbehind := h.byte hlt
    refine ⟨⟨pos' + j, by omega, by omega, ?_⟩, ?_, ?_⟩
    · rw [hsame]
      exact h3
    · rw [hbody', hbehind]
      exact hdangling
    · rw [hbody', hbehind, hbefore]
      exact hlast
  · -- the text has no suffix, so that its body ends with a digit
    obtain rfl : c = n := by omega
    have hplain := @Source.skipWhile_fails src isAlnumOrUnderscore (by decide) (src.bodyEnd pos)
    rw [h.word, isAlnumOrUnderscore, Bool.or_eq_false_iff, Bool.or_eq_false_iff] at hplain
    refine ⟨⟨pos' + j, by omega, by omega, ?_⟩, ?_, ?_⟩
    · rw [hsame]
      exact h3
    · rw [hbody', h.gap_at.2]
      decide
    · rw [hbody', hbefore]
      intro hline
      have halpha := hlast hline
      rw [hplain.1.1] at halpha
      cases halpha

theorem Copied.lexNumber (h : Copied src src' s.pos s'.pos n (ch ' '))
    (hdigit : isDigit (src.byte s.pos) = true) (ha : Accepted src s.pos) {kind : TokenKind}
    (hrun : src.lexNumber s = src.pushSignificant kind s.pos n { s with pos := s.pos + n }) :
    src'.lexNumber s' = src'.pushSignificant kind s'.pos n { s' with pos := s'.pos + n } := by
  rw [lexNumber_eq hdigit ha] at hrun
  have hword : src.skipWhile isAlnumOrUnderscore (src.bodyEnd s.pos) = s.pos + n :=
    congrArg LexState.pos hrun
  have hnumber : CopiedNumber src src' s.pos s'.pos n := ⟨h, hdigit, hword⟩
  obtain ⟨c, hc, hbody, hbody'⟩ := hnumber.body
  rw [hbody] at hword
  rw [lexNumber_eq hnumber.digit_copy (hnumber.accepted ha), hbody', h.scan (by decide) hc hword,
    Nat.add_sub_cancel_left, hnumber.hasPrefix]
  have hkind : (if !src.hasPrefix s.pos && (src.decimalEnd s.pos).2 then TokenKind.float
      else .integer) = kind := congrArg LexState.lastSignificant hrun
  rw [← hkind]
  cases hp : src.hasPrefix s.pos with
  | true => rfl
  | false => rw [hnumber.isFloat hp]

/-! ## Symbols -/

/-- The second and the third byte of a symbol decide on it only where they belong to it. -/
def Settled (symbol : UInt8 → UInt8 → Option (TokenKind × Nat)) : Prop :=
  ∀ n m n' m' kind width, symbol n m = some (kind, width) →
    (2 ≤ width → n' = n) → (width < 2 → n' = ch ' ') → (3 ≤ width → m' = m) →
    (width = 2 → m' = ch ' ') → symbol n' m' = some (kind, width)

variable {f g : UInt8 → UInt8 → Option (TokenKind × Nat)}

theorem Settled.same (row : Option (TokenKind × Nat)) : Settled fun _ _ => row :=
  fun _ _ _ _ _ _ h _ _ _ _ => h

theorem Settled.ite {p : Bool} (hf : Settled f) (hg : Settled g) :
    Settled fun n m => if p then f n m else g n m := by
  cases p with
  | true => exact hf
  | false => exact hg

theorem Settled.two {x : UInt8} {kind : TokenKind} (hx : x ≠ ch ' ') (hf : Settled f) :
    Settled fun n m => if n == x then some (kind, 2) else f n m := by
  intro n m n' m' kind' width h h1 h2 h3 h4
  dsimp only at h ⊢
  split at h
  · next hn =>
    cases h
    rw [h1 (Nat.le_refl 2), if_pos hn]
  · next hn =>
    rw [beq_iff_eq] at hn
    rw [if_neg, hf n m n' m' kind' width h h1 h2 h3 h4]
    rw [beq_iff_eq]
    obtain hlt | hge := Nat.lt_or_ge width 2
    · rw [h2 hlt]
      exact hx.symm
    · rw [h1 hge]
      exact hn

theorem Settled.three {x y : UInt8} {kind : TokenKind} (hx : x ≠ ch ' ') (hy : y ≠ ch ' ')
    (hf : Settled f) : Settled fun n m => if n == x && m == y then some (kind, 3) else f n m := by
  intro n m n' m' kind' width h h1 h2 h3 h4
  dsimp only at h ⊢
  split at h
  · next hboth =>
    cases h
    rw [h1 (by decide), h3 (Nat.le_refl 3), if_pos hboth]
  · next hboth =>
    rw [Bool.and_eq_true, beq_iff_eq, beq_iff_eq] at hboth
    rw [if_neg, hf n m n' m' kind' width h h1 h2 h3 h4]
    rw [Bool.and_eq_true, beq_iff_eq, beq_iff_eq]
    intro ⟨hn, hm⟩
    obtain hlt | hge := Nat.lt_or_ge width 2
    · exact hx (hn.symm.trans (h2 hlt))
    · obtain rfl | hthree := Nat.eq_or_lt_of_le hge
      · exact hy (hm.symm.trans (h4 rfl))
      · exact hboth ⟨(h1 hge).symm.trans hn, (h3 hthree).symm.trans hm⟩

theorem symbolKind_settled (c : UInt8) : Settled (symbolKind c) := by
  unfold symbolKind
  repeat' first
    | exact Settled.same _
    | refine Settled.ite ?_ ?_
    | refine Settled.two (by decide) ?_
    | refine Settled.three (by decide) (by decide) ?_

/-! ## Tokens -/

/-- A step that appends a token for the bytes it moves over, and makes the same of each copy of them
that has the gap behind it. -/
structure Repeats (src : Source) (s u : LexState) (kind : TokenKind) (n : Nat) (gap : UInt8)
    (run : Source → LexState → Option LexState) : Prop where
  inside : s.pos + n ≤ src.size
  made : u = src.pushSignificant kind s.pos n { s with pos := s.pos + n }
  again : ∀ {src' : Source} {s' : LexState}, Copied src src' s.pos s'.pos n gap →
    run src' s' = some (src'.pushSignificant kind s'.pos n { s' with pos := s'.pos + n })

theorem Repeats.moved {gap : UInt8} {run : Source → LexState → Option LexState}
    (h : Repeats src s u kind n gap run) : u.pos = s.pos + n := by
  rw [h.made]
  rfl

/-- A state behind a token, in terms of the token's length. -/
theorem pushed {k kind : TokenKind} {span : Diag.Span} {stop : Nat} (hle : s.pos ≤ stop)
    (hout : (src.pushSignificant k s.pos (stop - s.pos) { s with pos := stop }).out =
      s.out ++ [⟨kind, span⟩]) :
    ∃ n, stop = s.pos + n ∧
      src.pushSignificant k s.pos (stop - s.pos) { s with pos := stop } =
        src.pushSignificant kind s.pos n { s with pos := s.pos + n } := by
  obtain ⟨n, rfl⟩ := Nat.exists_eq_add_of_le hle
  obtain rfl : k = kind := kind_unique (s := s) rfl hout
  exact ⟨n, rfl, by rw [Nat.add_sub_cancel_left]⟩

theorem lexToken_word (h : isAlpha (src.byte s.pos) = true ∨ src.byte s.pos = ch '_') :
    src.lexToken s = some (src.lexIdentifier s) := by
  have hne : src.byte s.pos ≠ 0 := by
    intro h0
    rw [h0] at h
    exact absurd h (by decide)
  unfold Source.lexToken
  dsimp only
  rw [if_neg (by simpa using hne), if_pos (by simpa using h)]

theorem lexToken_string (h : src.byte s.pos = ch '"') : src.lexToken s = src.lexString s := by
  rw [Source.lexToken, h]
  rfl

theorem lexToken_char (h : src.byte s.pos = ch '\'') : src.lexToken s = src.lexChar s := by
  rw [Source.lexToken, h]
  rfl

theorem word_repeats (h : isAlpha (src.byte s.pos) = true ∨ src.byte s.pos = ch '_')
    {kind : TokenKind} {span : Diag.Span}
    (hout : (src.lexIdentifier s).out = s.out ++ [⟨kind, span⟩]) :
    ∃ n, Repeats src s (src.lexIdentifier s) kind n (ch ' ') Source.lexToken := by
  have halnum : isAlnumOrUnderscore (src.byte s.pos) = true := by
    obtain h | h := h
    · simp [isAlnumOrUnderscore, h]
    · simp [isAlnumOrUnderscore, h]
  have hlt : s.pos < src.size := Source.lt_of_byte_ne (plain_ne_zero (plain_of_alnum halnum))
  have hpos : s.pos < src.skipWhile isAlnumOrUnderscore s.pos := by
    rw [Source.skipWhile_of_pos hlt halnum]
    exact src.le_skipWhile isAlnumOrUnderscore (s.pos + 1)
  have hle := Source.skipWhile_le (p := isAlnumOrUnderscore) (Nat.le_of_lt hlt)
  obtain ⟨n, hn, hrun⟩ := pushed (Nat.le_of_lt hpos) hout
  refine ⟨n, hn ▸ hle, hrun, fun {src' s'} hcopy => ?_⟩
  rw [lexToken_word (by rwa [hcopy.first (by omega)])]
  exact congrArg some (hcopy.lexIdentifier hrun)

theorem number_repeats (h : isDigit (src.byte s.pos) = true) {kind : TokenKind}
    {span : Diag.Span} (hout : (src.lexNumber s).out = s.out ++ [⟨kind, span⟩])
    (hkind : kind ≠ .error) :
    ∃ n, Repeats src s (src.lexNumber s) kind n (ch ' ') Source.lexToken := by
  by_cases ha : Accepted src s.pos
  swap
  · obtain ⟨stop, hstop⟩ := lexNumber_rejected h ha
    rw [hstop] at hout
    exact absurd (kind_unique rfl hout).symm hkind
  have hlt := lt_bodyEnd h
  have hword := src.le_skipWhile isAlnumOrUnderscore (src.bodyEnd s.pos)
  have hle := Source.skipWhile_le (p := isAlnumOrUnderscore) (bodyEnd_le h)
  have heq := lexNumber_eq h ha
  rw [heq] at hout
  obtain ⟨n, hn, hrun⟩ := pushed (by omega) hout
  refine ⟨n, hn ▸ hle, heq.trans hrun, fun {src' s'} hcopy => ?_⟩
  rw [lexToken_digit (by rwa [hcopy.first (by omega)])]
  exact congrArg some (hcopy.lexNumber h ha (heq.trans hrun))

/-- A literal of the grammar is one wherever it stands. -/
theorem Copied.textAt {lit : List UInt8} (h : Copied src src' pos pos' lit.length gap)
    (hat : src.TextAt pos lit) : src'.TextAt pos' lit := by
  have htext := (Source.textAt_append.mp h.text).1
  rwa [hat.slice] at htext

theorem literal_repeats {quote : UInt8} {kind : TokenKind} {Literal : List UInt8 → Prop}
    {read : Source → LexState → Option LexState}
    (htoken : ∀ {src : Source} {s : LexState}, src.byte s.pos = quote →
      src.lexToken s = read src s)
    (hread : ∀ {src : Source} {s : LexState} {lit : List UInt8}, Literal lit →
      src.TextAt s.pos lit → read src s = some
        (src.pushSignificant kind s.pos lit.length { s with pos := s.pos + lit.length }))
    (hquote : src.byte s.pos = quote) (hin : s.pos ≤ src.size) {lit : List UInt8}
    (hlit : Literal lit) (hlen : 0 < lit.length) (hat : src.TextAt s.pos lit)
    (hrun : read src s = some u) :
    Repeats src s u kind lit.length (ch ' ') Source.lexToken := by
  rw [hread hlit hat, Option.some.injEq] at hrun
  refine ⟨hat.le hin, hrun.symm, fun {src' s'} hcopy => ?_⟩
  rw [htoken ((hcopy.first hlen).trans hquote)]
  exact hread hlit (hcopy.textAt hat)

theorem string_repeats (h : src.byte s.pos = ch '"') {kind : TokenKind} {span : Diag.Span}
    (hrun : src.lexString s = some u) (hout : u.out = s.out ++ [⟨kind, span⟩])
    (hkind : kind ≠ .error) : ∃ n, Repeats src s u kind n (ch ' ') Source.lexToken := by
  have hstring : kind = .string := by
    have hkinds := hrun
    unfold Source.lexString at hkinds
    obtain ⟨⟨stop, f⟩, -, hkinds⟩ := Option.bind_eq_some_iff.1 hkinds
    rw [← Option.some.inj hkinds] at hout
    split at hout
    · exact absurd (kind_unique hout rfl) hkind
    split at hout
    · exact absurd (kind_unique hout rfl) hkind
    · exact kind_unique hout rfl
  rw [hstring] at hout ⊢
  obtain ⟨lit, hlit, hat⟩ := literal_of_lexString h hrun hout
  have hlen : 0 < lit.length := by
    obtain ⟨body, -, rfl⟩ := hlit
    exact Nat.succ_pos _
  have hin : s.pos < src.size := Source.lt_of_byte_ne (by rw [h]; decide)
  exact ⟨_, literal_repeats lexToken_string lexString_of_literal h (Nat.le_of_lt hin) hlit hlen hat
    hrun⟩

theorem char_repeats (h : src.byte s.pos = ch '\'') {kind : TokenKind} {span : Diag.Span}
    (hrun : src.lexChar s = some u) (hout : u.out = s.out ++ [⟨kind, span⟩])
    (hkind : kind ≠ .error) : ∃ n, Repeats src s u kind n (ch ' ') Source.lexToken := by
  have hchar : kind = .char := by
    have hkinds := hrun
    unfold Source.lexChar at hkinds
    obtain ⟨⟨stop, f⟩, -, hkinds⟩ := Option.bind_eq_some_iff.1 hkinds
    rw [← Option.some.inj hkinds] at hout
    split at hout
    · exact absurd (kind_unique hout rfl) hkind
    split at hout
    · exact absurd (kind_unique hout rfl) hkind
    split at hout
    · exact absurd (kind_unique hout rfl) hkind
    · exact kind_unique hout rfl
  rw [hchar] at hout ⊢
  obtain ⟨lit, hlit, hat⟩ := literal_of_lexChar h hrun hout
  have hlen : 0 < lit.length := by
    obtain ⟨body, -, -, rfl⟩ := hlit
    exact Nat.succ_pos _
  have hin : s.pos < src.size := Source.lt_of_byte_ne (by rw [h]; decide)
  exact ⟨_, literal_repeats lexToken_char lexChar_of_literal h (Nat.le_of_lt hin) hlit hlen hat
    hrun⟩

/-- Nothing but a symbol stands here. -/
structure AtSymbol (src : Source) (pos : Nat) : Prop where
  nul : src.byte pos ≠ 0
  word : ¬ (isAlpha (src.byte pos) = true ∨ src.byte pos = ch '_')
  digit : isDigit (src.byte pos) = false
  string : src.byte pos ≠ ch '"'
  char : src.byte pos ≠ ch '\''

theorem AtSymbol.lexToken (h : AtSymbol src s.pos) : src.lexToken s = some (src.lexSymbol s) := by
  unfold Source.lexToken
  dsimp only
  rw [if_neg (by simpa using h.nul), if_neg (by simpa using h.word),
    if_neg (by rw [h.digit]; decide), if_neg (by simpa using h.string),
    if_neg (by simpa using h.char)]

theorem AtSymbol.copy (h : AtSymbol src pos) (hbyte : src'.byte pos' = src.byte pos) :
    AtSymbol src' pos' := by
  constructor <;> rw [hbyte]
  exacts [h.nul, h.word, h.digit, h.string, h.char]

theorem symbol_repeats (h : AtSymbol src s.pos) {kind : TokenKind} {span : Diag.Span}
    (hout : (src.lexSymbol s).out = s.out ++ [⟨kind, span⟩]) (hkind : kind ≠ .error) :
    ∃ n, Repeats src s (src.lexSymbol s) kind n (ch ' ') Source.lexToken := by
  cases hrow : symbolKind (src.byte s.pos) (src.byte (s.pos + 1)) (src.byte (s.pos + 2)) with
  | none =>
    rw [Source.lexSymbol, hrow] at hout
    exact absurd (kind_unique hout rfl) hkind
  | some row =>
    obtain ⟨k, width⟩ := row
    have hsymbol : src.lexSymbol s = src.pushSignificant k s.pos width (s.advance width) := by
      rw [Source.lexSymbol, hrow]
    rw [hsymbol] at hout
    obtain rfl : k = kind := kind_unique (s := s) rfl hout
    obtain ⟨-, -, -, -, hpos, htwo, hthree, hwidth⟩ := symbolKind_ok _ _ _ k width hrow
    have hin : s.pos < src.size := Source.lt_of_byte_ne h.nul
    have hin2 (hle : 2 ≤ width) : s.pos + 1 < src.size :=
      Source.lt_of_byte_ne (plain_ne_zero (htwo hle))
    have hin3 (hle : 3 ≤ width) : s.pos + 2 < src.size :=
      Source.lt_of_byte_ne (plain_ne_zero (hthree hle))
    refine ⟨width, by omega, hsymbol, fun {src' s'} hcopy => ?_⟩
    have hfirst := hcopy.first hpos
    have hblank := hcopy.gap_at.2
    rw [(h.copy hfirst).lexToken, Source.lexSymbol, hfirst,
      symbolKind_settled _ _ _ _ _ k width hrow (fun hle => hcopy.byte hle)
        (fun hlt => by rwa [show width = 1 by omega] at hblank) (fun hle => hcopy.byte hle)
        (fun htwo => by rwa [htwo] at hblank)]
    rfl

/-- **One token.** Neither the kind nor the extent of a token depends on what stands behind it. -/
theorem lexToken_repeats (hrun : src.lexToken s = some u) {kind : TokenKind} {span : Diag.Span}
    (hout : u.out = s.out ++ [⟨kind, span⟩]) (hkind : kind ≠ .error) :
    ∃ n, Repeats src s u kind n (ch ' ') Source.lexToken := by
  by_cases hword : isAlpha (src.byte s.pos) = true ∨ src.byte s.pos = ch '_'
  · rw [lexToken_word hword, Option.some.injEq] at hrun
    rw [← hrun] at hout ⊢
    exact word_repeats hword hout
  by_cases hdigit : isDigit (src.byte s.pos) = true
  · rw [lexToken_digit hdigit, Option.some.injEq] at hrun
    rw [← hrun] at hout ⊢
    exact number_repeats hdigit hout hkind
  by_cases hstring : src.byte s.pos = ch '"'
  · rw [lexToken_string hstring] at hrun
    exact string_repeats hstring hrun hout hkind
  by_cases hchar : src.byte s.pos = ch '\''
  · rw [lexToken_char hchar] at hrun
    exact char_repeats hchar hrun hout hkind
  by_cases hnul : src.byte s.pos = 0
  · rw [Source.lexToken, hnul] at hrun
    rw [← Option.some.inj hrun] at hout
    exact absurd (kind_unique hout rfl) hkind
  · have hat : AtSymbol src s.pos := ⟨hnul, hword, by simpa using hdigit, hstring, hchar⟩
    rw [hat.lexToken, Option.some.injEq] at hrun
    rw [← hrun] at hout ⊢
    exact symbol_repeats hat hout hkind

theorem Repeats.round (h : Repeats src s u kind n (ch ' ') Source.lexToken) (hn : 0 < n)
    (hspace : isSpace (src.byte s.pos) = false) (hno : NoComment src s.pos) :
    Repeats src s u kind n (ch ' ') Source.round := by
  refine ⟨h.inside, h.made, fun {src' s'} hcopy => ?_⟩
  have hfirst := hcopy.first hn
  rw [round_code (by rwa [hfirst]), h.again hcopy]
  -- what follows a slash belongs to the text, or is the blank
  rintro ⟨hslash, hnext⟩
  rw [hfirst] at hslash
  obtain hlt | hge := Nat.lt_or_ge 1 n
  · rw [hcopy.byte hlt] at hnext
    exact hno ⟨hslash, hnext⟩
  · have hblank := hcopy.gap_at.2
    rw [show n = 1 by omega] at hblank
    rw [hblank] at hnext
    exact absurd hnext (by decide)

/-- A doc comment is the rest of its line. -/
theorem doc_repeats (hdoc : OpensDoc src s.pos) (hrun : src.round s = some u) :
    ∃ n, Repeats src s u .docComment n (ch '\n') Source.round := by
  have hfar := doc_end hdoc hrun
  rw [round_line hdoc.1 hdoc.2.1, lineComment_doc hdoc, Option.some.injEq] at hrun
  rw [← hrun] at hfar
  have hthird : src.byte (s.pos + 2) = ch '/' := by
    have h3 := hdoc.2.2
    rw [Bool.and_eq_true, beq_iff_eq] at h3
    exact h3.1
  have hin : s.pos + 2 < src.size := Source.lt_of_byte_ne (by rw [hthird]; decide)
  have hle := Source.skipWhile_le (p := (· != ch '\n')) (show s.pos + 3 ≤ src.size from hin)
  obtain ⟨n, hn⟩ := Nat.exists_eq_add_of_le
    (show s.pos ≤ src.skipWhile (· != ch '\n') (s.pos + 3) from Nat.le_trans (by omega)
      (src.le_skipWhile (· != ch '\n') (s.pos + 3)))
  have hlen : 2 < n := by
    have hfar : s.pos + 2 < src.skipWhile (· != ch '\n') (s.pos + 3) := hfar
    omega
  refine ⟨n, hn ▸ hle, by rw [← hrun, hn, Nat.add_sub_cancel_left], fun {src' s'} hcopy => ?_⟩
  have hopens : OpensDoc src' s'.pos := by
    refine ⟨(hcopy.first (by omega)).trans hdoc.1, (hcopy.byte (by omega)).trans hdoc.2.1, ?_⟩
    have h3 := hdoc.2.2
    rw [Bool.and_eq_true] at h3 ⊢
    rw [hcopy.byte hlen]
    refine ⟨h3.1, ?_⟩
    obtain hlt | hge := Nat.lt_or_ge 3 n
    · rw [hcopy.byte hlt]
      exact h3.2
    · rw [show 3 = n by omega, hcopy.gap_at.2]
      decide
  rw [round_line hopens.1 hopens.2.1, lineComment_doc hopens, hcopy.scan (by decide) hlen hn,
    Nat.add_sub_cancel_left]

/-! ## Pieces -/

/-- A token's kind, and its spelling. -/
structure Piece where
  kind : TokenKind
  text : List UInt8
  deriving DecidableEq, Repr

/-- The spelling of a token from where it starts to where it stops. An inserted semicolon stands on
a newline, and is spelled like the others. -/
def Source.spelled (src : Source) (kind : TokenKind) (start stop : Nat) : List UInt8 :=
  if kind == .semicolon then bytesOf ";" else src.slice start stop

/-- What a round appends, spelled by the bytes that it moved over. -/
def Source.made (src : Source) (s u : LexState) : List Piece :=
  (u.out.drop s.out.length).map fun token => ⟨token.kind, src.spelled token.kind s.pos u.pos⟩

/-- The tokens from here on. -/
def Source.piecesFrom (src : Source) : Nat → LexState → List Piece
  | 0, _ => []
  | fuel + 1, s =>
    if src.atEnd s.pos then []
    else match src.round s with
      | none => []
      | some u => src.made s u ++ piecesFrom src fuel u

/-- The tokens before the end, with their spellings. -/
def Source.pieces (src : Source) : List Piece := src.piecesFrom (src.size + 1) .start

/-- What is written behind a token. -/
def Piece.blank (p : Piece) : UInt8 := if p.kind == .docComment then ch '\n' else ch ' '

def Piece.written (p : Piece) : List UInt8 := p.text ++ [p.blank]

/-- The spellings of all tokens, one behind the other. -/
def Source.respelled (src : Source) : Source := ⟨src.pieces.flatMap Piece.written, src.file⟩

theorem made_nothing (h : u.out = s.out) : src.made s u = [] := by
  rw [Source.made, h, List.drop_length]
  rfl

theorem made_token {kind : TokenKind} {span : Diag.Span} (h : u.out = s.out ++ [⟨kind, span⟩]) :
    src.made s u = [⟨kind, src.spelled kind s.pos u.pos⟩] := by
  rw [Source.made, h, List.drop_left]
  rfl

/-- A piece is read back wherever it is written. -/
structure Legible (p : Piece) : Prop where
  semicolon : p.kind = .semicolon → p.text = bytesOf ";"
  reads : ∀ {src : Source} {s : LexState}, src.TextAt s.pos p.written →
    src.round s = some (src.pushSignificant p.kind s.pos p.text.length
      { s with pos := s.pos + p.text.length })

theorem legible_semicolon : Legible ⟨.semicolon, bytesOf ";"⟩ := by
  refine ⟨fun _ => rfl, fun {src s} hat => ?_⟩
  have hbyte : src.byte s.pos = ch ';' := (Source.textAt_cons.mp hat).2.1
  have hno : NoComment src s.pos := fun hslash =>
    absurd (hbyte.symm.trans hslash.1) (by decide)
  rw [round_code (by rw [hbyte]; decide) hno, Source.lexToken, hbyte]
  show some (src.lexSymbol s) = _
  rw [Source.lexSymbol, hbyte]
  rfl

/-- What repeats is legible. -/
theorem Repeats.legible {kind : TokenKind} {gap : UInt8}
    (h : Repeats src s u kind n gap Source.round) (hgap : gap = (Piece.mk kind []).blank)
    (hkind : kind ≠ .semicolon) : Legible ⟨kind, src.spelled kind s.pos u.pos⟩ := by
  have hspelled : src.spelled kind s.pos u.pos = src.slice s.pos (s.pos + n) := by
    rw [Source.spelled, if_neg (by simpa using hkind), h.moved]
  have hlen : (src.slice s.pos (s.pos + n)).length = n := by
    rw [Source.slice_length h.inside, Nat.add_sub_cancel_left]
  rw [hspelled]
  refine ⟨fun hsemi => absurd hsemi hkind, fun {src' s'} hat => ?_⟩
  rw [h.again ⟨h.inside, hgap ▸ hat⟩]
  show _ = some (src'.pushSignificant kind s'.pos (src.slice s.pos (s.pos + n)).length
    { s' with pos := s'.pos + (src.slice s.pos (s.pos + n)).length })
  rw [hlen]

/-- What a round does to the output, errors apart. -/
inductive Appends (src : Source) (s u : LexState) : Prop
  | nothing (hout : u.out = s.out)
  | token (kind : TokenKind) (hle : u.pos ≤ src.size)
      (hout : u.out = s.out ++ [⟨kind, src.spanAt s.pos (u.pos - s.pos)⟩])
      (hlegible : Legible ⟨kind, src.spelled kind s.pos u.pos⟩)

theorem Repeats.appends (h : Repeats src s u kind n gap Source.round)
    (hgap : gap = (Piece.mk kind []).blank) (hkind : kind ≠ .semicolon) : Appends src s u := by
  refine .token kind (h.moved ▸ h.inside) ?_ (h.legible hgap hkind)
  rw [h.moved, Nat.add_sub_cancel_left, h.made]
  rfl

theorem round_appends (hin : src.atEnd s.pos = false) (hrun : src.round s = some u)
    (hgood : ∀ token ∈ u.out, token.kind ≠ .error) : Appends src s u := by
  have hlt := round_lt hin hrun
  have hle := Source.atEnd_eq_false.mp hin
  cases round_cases hin hrun with
  | space _ hpos hout =>
    obtain hsame | hnl := hout
    · exact .nothing hsame
    · rw [round_newline hnl] at hrun
      obtain ⟨-, ⟨-, -, hsemi⟩ | ⟨-, hsame⟩⟩ := newline_cases hrun
      · refine .token .semicolon (by omega) ?_ legible_semicolon
        rw [hpos, Nat.add_sub_cancel_left]
        exact hsemi
      · exact .nothing hsame
  | comment _ _ hsame => exact .nothing hsame
  | token kind span hat hout hdoc hunfinished hcode =>
    have hkind : kind ≠ .error := hgood ⟨kind, span⟩ (by rw [hout]; simp)
    obtain hno | hopens | hopen := hat.2
    · have hlex := hcode hno
      obtain ⟨n, hrepeats⟩ := lexToken_repeats hlex hout hkind
      have hmoved := hrepeats.moved
      have hround := hrepeats.round (by omega) hat.1 hno
      by_cases hsemi : kind = .semicolon
      · rw [hsemi] at hround
        refine .token .semicolon (hmoved ▸ hround.inside) ?_ legible_semicolon
        rw [hmoved, Nat.add_sub_cancel_left, hround.made]
        rfl
      · refine hround.appends ?_ hsemi
        rw [Piece.blank, if_neg (by simpa using (lexToken_makesCode hlex).kind hout)]
    · obtain ⟨n, hrepeats⟩ := doc_repeats hopens hrun
      exact hrepeats.appends rfl (by decide)
    · exact absurd (hunfinished hopen) hkind

theorem Appends.made_legible (h : Appends src s u) : ∀ p ∈ src.made s u, Legible p := by
  intro p hp
  cases h with
  | nothing hout =>
    rw [made_nothing hout] at hp
    cases hp
  | token kind _ hout hlegible =>
    rw [made_token hout, List.mem_singleton] at hp
    exact hp ▸ hlegible

/-! ## Whole texts -/

theorem piecesFrom_end {fuel : Nat} (hend : src.atEnd s.pos = true) :
    src.piecesFrom fuel s = [] := by
  cases fuel with
  | zero => rfl
  | succ fuel => rw [Source.piecesFrom, if_pos hend]

theorem piecesFrom_round {fuel : Nat} (hin : src.atEnd s.pos = false)
    (hrun : src.round s = some u) :
    src.piecesFrom (fuel + 1) s = src.made s u ++ src.piecesFrom fuel u := by
  rw [Source.piecesFrom, if_neg (by rw [hin]; decide), hrun]

/-- The pieces are the tokens that the rest of the run appends. -/
theorem kinds_piecesFrom {e : LexState} (hrest : Course src s e) (hend : src.atEnd e.pos = true)
    {fuel : Nat} (hfuel : src.size - s.pos < fuel) :
    e.out.map (·.kind) = s.out.map (·.kind) ++ (src.piecesFrom fuel s).map (·.kind) := by
  induction hrest generalizing fuel with
  | refl =>
    rw [piecesFrom_end hend]
    exact (List.append_nil _).symm
  | @step s u e hin hrun _ ih =>
    obtain ⟨fuel, rfl⟩ : ∃ k, fuel = k + 1 := ⟨fuel - 1, by omega⟩
    have hlt := round_lt hin hrun
    have hlt' := Source.atEnd_eq_false.mp hin
    obtain ⟨more, hmore⟩ := round_grows hrun
    have hmade : (src.made s u).map (·.kind) = more.map (·.kind) := by
      rw [Source.made, ← hmore, List.drop_left, List.map_map]
      rfl
    rw [piecesFrom_round hin hrun, List.map_append, hmade,
      ih hend (show src.size - u.pos < fuel by omega), ← hmore, List.map_append, List.append_assoc]

theorem piecesFrom_legible {e : LexState} (hrest : Course src s e)
    (hend : src.atEnd e.pos = true) (hgood : ∀ token ∈ e.out, token.kind ≠ .error) (fuel : Nat) :
    ∀ p ∈ src.piecesFrom fuel s, Legible p := by
  induction hrest generalizing fuel with
  | refl =>
    rw [piecesFrom_end hend]
    intro p hp
    cases hp
  | @step s u e hin hrun hrest ih =>
    cases fuel with
    | zero =>
      intro p hp
      cases hp
    | succ fuel =>
      have happends := round_appends hin hrun fun token htoken =>
        hgood token (hrest.grows.subset htoken)
      rw [piecesFrom_round hin hrun]
      intro p hp
      obtain hp | hp := List.mem_append.mp hp
      · exact happends.made_legible p hp
      · exact ih hend hgood fuel p hp

/-- The blank behind a piece makes no token: newlines stand behind doc comments only. -/
theorem round_blank_behind {p : Piece} (hbyte : src.byte s.pos = p.blank)
    (hlast : s.lastSignificant = p.kind) : src.round s = some (s.advance 1) := by
  by_cases hdoc : p.kind = .docComment
  · rw [Piece.blank, hdoc] at hbyte
    rw [round_newline hbyte, Source.newline, hlast, hdoc]
    rfl
  · rw [Piece.blank, if_neg (by simpa using hdoc)] at hbyte
    exact round_blank (by rw [hbyte]; decide)

/-- Legible pieces are read back from what is written. -/
theorem piecesFrom_written {ps : List Piece} (hps : ∀ p ∈ ps, Legible p)
    (hat : src.TextAt s.pos (ps.flatMap Piece.written))
    (hend : s.pos + (ps.flatMap Piece.written).length = src.size) {fuel : Nat}
    (hfuel : src.size - s.pos < fuel) : src.piecesFrom fuel s = ps := by
  induction ps generalizing s fuel with
  | nil => exact piecesFrom_end (Source.atEnd_eq_true.mpr (Nat.le_of_eq hend.symm))
  | cons p ps ih =>
    have hlegible := hps p List.mem_cons_self
    rw [List.flatMap_cons] at hat hend
    obtain ⟨hp, hrest⟩ := Source.textAt_append.mp hat
    obtain ⟨htext, hblank⟩ := Source.textAt_append.mp hp
    obtain ⟨hlt, hbyte, -⟩ := Source.textAt_cons.mp hblank
    have hlen : p.written.length = p.text.length + 1 := by
      rw [Piece.written, List.length_append, List.length_singleton]
    rw [hlen, ← Nat.add_assoc] at hrest
    rw [List.length_append, hlen] at hend
    have hin : src.atEnd s.pos = false := Source.atEnd_eq_false.mpr (by omega)
    have hround := hlegible.reads hp
    have hmove : s.pos < s.pos + p.text.length := round_lt hin hround
    obtain ⟨fuel, rfl⟩ : ∃ k, fuel = k + 1 + 1 := ⟨fuel - 2, by omega⟩
    have hspelled : src.spelled p.kind s.pos (s.pos + p.text.length) = p.text := by
      unfold Source.spelled
      split
      · next hkind => exact (hlegible.semicolon (beq_iff_eq.mp hkind)).symm
      · exact htext.slice
    obtain ⟨u, hu⟩ : ∃ u, u = src.pushSignificant p.kind s.pos p.text.length
      { s with pos := s.pos + p.text.length } := ⟨_, rfl⟩
    have hpos : u.pos = s.pos + p.text.length := hu ▸ rfl
    rw [← hu] at hround
    rw [← hpos] at hlt hbyte hspelled hrest
    have hpiece : src.made s u = [p] := by
      have hout : u.out = s.out ++ [⟨p.kind, src.spanAt s.pos p.text.length⟩] := hu ▸ rfl
      rw [made_token hout, hspelled]
    have hblank := round_blank_behind hbyte (hu ▸ rfl)
    have hnothing : src.made u (u.advance 1) = [] := made_nothing rfl
    have hrest : src.piecesFrom fuel (u.advance 1) = ps :=
      ih (fun q hq => hps q (List.mem_cons_of_mem p hq)) hrest
        (show u.pos + 1 + _ = _ by omega) (show src.size - (u.pos + 1) < fuel by omega)
    rw [piecesFrom_round hin hround, piecesFrom_round (Source.atEnd_eq_false.mpr hlt) hblank,
      hpiece, hnothing, hrest]
    rfl

/-- The kinds of the tokens, the end last. -/
theorem kinds_pieces {t : LexState} (hrun : src.tokenize = some t) :
    t.out.map (·.kind) = src.pieces.map (·.kind) ++ [.eof] := by
  obtain ⟨e, hcourse, hend, rfl, -⟩ := tokenize_course hrun
  show (e.out ++ [_]).map _ = _
  rw [List.map_append, kinds_piecesFrom hcourse hend (Nat.lt_succ_self _)]
  rfl

theorem tokenize_total (src : Source) : ∃ t, src.tokenize = some t := by
  obtain ⟨e, hrun, -, -⟩ := @lexTokens_spec src (fun _ => True) (fun s s' => step_bounded)
    (src.size + 2) .start trivial (Nat.zero_le _) (by simp [LexState.start])
  exact ⟨_, by rw [Source.tokenize, hrun, Option.map_some]⟩

/-- What a token says of itself, its spelling read at its span. -/
def Source.read (src : Source) (token : Token) : Piece :=
  ⟨token.kind, src.spelled token.kind token.span.offset token.stop⟩

theorem Appends.made_read (h : Appends src s u) (hsize : src.size < 2 ^ 32) (hlt : s.pos < u.pos) :
    u.out.map src.read = s.out.map src.read ++ src.made s u := by
  cases h with
  | nothing hout => rw [made_nothing hout, hout, List.append_nil]
  | token kind hle hout _ =>
    rw [made_token hout, hout, List.map_append, List.map_singleton, Source.read]
    simp only [Token.stop, Source.spanAt]
    rw [Nat.mod_eq_of_lt (by omega), Nat.mod_eq_of_lt (by omega),
      Nat.add_sub_of_le (Nat.le_of_lt hlt)]

/-- Where a span can say where its token stands, it does. -/
theorem read_piecesFrom {e : LexState} (hsize : src.size < 2 ^ 32) (hrest : Course src s e)
    (hend : src.atEnd e.pos = true) (hgood : ∀ token ∈ e.out, token.kind ≠ .error) {fuel : Nat}
    (hfuel : src.size - s.pos < fuel) :
    e.out.map src.read = s.out.map src.read ++ src.piecesFrom fuel s := by
  induction hrest generalizing fuel with
  | refl =>
    rw [piecesFrom_end hend]
    exact (List.append_nil _).symm
  | @step s u e hin hrun hrest ih =>
    obtain ⟨fuel, rfl⟩ : ∃ k, fuel = k + 1 := ⟨fuel - 1, by omega⟩
    have hlt := round_lt hin hrun
    have hlt' := Source.atEnd_eq_false.mp hin
    have happends := round_appends hin hrun fun token htoken =>
      hgood token (hrest.grows.subset htoken)
    rw [piecesFrom_round hin hrun, ← List.append_assoc, ← happends.made_read hsize hlt,
      ih hend hgood (show src.size - u.pos < fuel by omega)]

/-- **Tokens do not depend on what follows them.** A text without errors, written token by token
with a blank behind each, lexes to the same kinds and the same spellings. -/
theorem respelled_pieces (src : Source) {t : LexState} (hrun : src.tokenize = some t)
    (hgood : ∀ token ∈ t.out, token.kind ≠ .error) :
    t.out.map (·.kind) = src.pieces.map (·.kind) ++ [.eof] ∧
    (src.size < 2 ^ 32 → t.out.map src.read = src.pieces ++ [⟨.eof, []⟩]) ∧
    src.respelled.pieces = src.pieces ∧
    ∃ t', src.respelled.tokenize = some t' ∧ t'.out.map (·.kind) = t.out.map (·.kind) := by
  have hkinds := kinds_pieces hrun
  obtain ⟨e, hcourse, hend, rfl, -⟩ := tokenize_course hrun
  have hgood : ∀ token ∈ e.out, token.kind ≠ .error := fun token htoken =>
    hgood token (List.mem_append_left _ htoken)
  have hpieces : src.respelled.pieces = src.pieces :=
    piecesFrom_written (piecesFrom_legible hcourse hend hgood (src.size + 1))
      (s := .start) (List.prefix_refl src.respelled.bytes) (Nat.zero_add _) (Nat.lt_succ_self _)
  refine ⟨hkinds, ?_, hpieces, ?_⟩
  · intro hsize
    show (e.out ++ [_]).map _ = _
    rw [List.map_append, read_piecesFrom hsize hcourse hend hgood (Nat.lt_succ_self _)]
    have heof : src.spelled .eof (e.pos % 2 ^ 32) (e.pos % 2 ^ 32) = [] :=
      Source.slice_self (e.pos % 2 ^ 32)
    show _ ++ [Piece.mk .eof (src.spelled .eof (e.pos % 2 ^ 32) (e.pos % 2 ^ 32))] = _
    rw [heof]
    rfl
  · obtain ⟨t', ht'⟩ := tokenize_total src.respelled
    exact ⟨t', ht', by rw [kinds_pieces ht', hpieces, hkinds]⟩

/-- A range, a suffix, a doc comment and a newline that becomes a semicolon. -/
def rangeText : Source := ⟨bytesOf "a=1..2e+0/// d\nb\n\"c\"", 0⟩

theorem rangeText_respelled : ∃ t, rangeText.tokenize = some t ∧
    (∀ token ∈ t.out, token.kind ≠ .error) ∧
    t.out.map (·.kind) = rangeText.pieces.map (·.kind) ++ [.eof] ∧
    (rangeText.size < 2 ^ 32 → t.out.map rangeText.read = rangeText.pieces ++ [⟨.eof, []⟩]) ∧
    rangeText.respelled.pieces = rangeText.pieces ∧
    ∃ t', rangeText.respelled.tokenize = some t' ∧ t'.out.map (·.kind) = t.out.map (·.kind) := by
  have hrun : rangeText.tokenize.map (fun t => t.out.all fun token => token.kind != .error) =
      some true := by decide
  obtain ⟨t, ht, hgood⟩ := Option.map_eq_some_iff.mp hrun
  have hgood : ∀ token ∈ t.out, token.kind ≠ .error := fun token htoken =>
    bne_iff_ne.mp (List.all_eq_true.mp hgood token htoken)
  exact ⟨t, ht, hgood, respelled_pieces rangeText ht hgood⟩

example : rangeText.respelled.bytes = bytesOf "a = 1 .. 2e+0 /// d\nb ; \"c\" " := by decide

end Alcy.Lexer
