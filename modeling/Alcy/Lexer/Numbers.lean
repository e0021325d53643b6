import Alcy.Lexer.NextCode

/-! # Numbers

Where the body of a number ends, and where its underscores stand. The lexer refuses an underscore at
the end of a body unless a letter follows, and no other one, so a body can have underscores next to
its prefix, its point or its exponent.
-/
namespace Alcy.Lexer.Source

variable (src : Source)

/-- The test of `lex_number` for a base prefix. -/
def hasPrefix (pos : Nat) : Bool :=
  src.byte pos == ch '0' && (src.byte (pos + 1) == ch 'b' || src.byte (pos + 1) == ch 'B' ||
    src.byte (pos + 1) == ch 'o' || src.byte (pos + 1) == ch 'O' || src.byte (pos + 1) == ch 'x' ||
    src.byte (pos + 1) == ch 'X')

/-- Where the digits of a decimal literal end, and whether it has a fraction or an exponent. -/
def decimalEnd (pos : Nat) : Nat × Bool :=
  let whole := src.skipWhile isDigitOrUnderscore pos
  let hasFraction := src.byte whole == ch '.' && src.byte (whole + 1) != ch '.'
  let mantissa := if hasFraction then src.skipWhile isDigitOrUnderscore (whole + 1) else whole
  let e := src.byte mantissa
  let sign := src.byte (mantissa + 1)
  let signed := sign == ch '+' || sign == ch '-'
  let hasExponent := (e == ch 'e' || e == ch 'E') &&
    (isDigit sign || (signed && isDigit (src.byte (mantissa + 2))))
  (if hasExponent then
      src.skipWhile isDigitOrUnderscore (if signed then mantissa + 2 else mantissa + 1)
    else mantissa, hasFraction || hasExponent)

/-- Where the body of a number ends and its suffix starts, as `lex_number` reads it. -/
def bodyEnd (pos : Nat) : Nat :=
  if src.hasPrefix pos then src.skipWhile (inBase (src.byte (pos + 1))) (pos + 2)
  else (src.decimalEnd pos).1

/-! ## The parts of a decimal body -/

def wholeEnd (pos : Nat) : Nat := src.skipWhile isDigitOrUnderscore pos

def hasFraction (pos : Nat) : Bool :=
  src.byte (src.wholeEnd pos) == ch '.' && src.byte (src.wholeEnd pos + 1) != ch '.'

def mantissaEnd (pos : Nat) : Nat :=
  if src.hasFraction pos then src.skipWhile isDigitOrUnderscore (src.wholeEnd pos + 1)
  else src.wholeEnd pos

def isSigned (pos : Nat) : Bool :=
  src.byte (src.mantissaEnd pos + 1) == ch '+' || src.byte (src.mantissaEnd pos + 1) == ch '-'

def hasExponent (pos : Nat) : Bool :=
  (src.byte (src.mantissaEnd pos) == ch 'e' || src.byte (src.mantissaEnd pos) == ch 'E') &&
    (isDigit (src.byte (src.mantissaEnd pos + 1)) ||
      (src.isSigned pos && isDigit (src.byte (src.mantissaEnd pos + 2))))

/-- Where the digits of an exponent start. -/
def exponentStart (pos : Nat) : Nat :=
  if src.isSigned pos then src.mantissaEnd pos + 2 else src.mantissaEnd pos + 1

theorem decimalEnd_eq (pos : Nat) : src.decimalEnd pos =
    (if src.hasExponent pos then src.skipWhile isDigitOrUnderscore (src.exponentStart pos)
      else src.mantissaEnd pos, src.hasFraction pos || src.hasExponent pos) := rfl

/-- Where the digits of a body start. -/
def digitsStart (pos : Nat) : Nat := if src.hasPrefix pos then pos + 2 else pos

/-- A digit of the literal's base. -/
def isBaseDigit (pos : Nat) (c : UInt8) : Bool :=
  c != ch '_' && if src.hasPrefix pos then inBase (src.byte (pos + 1)) c else isDigit c

end Alcy.Lexer.Source

namespace Alcy.Lexer
open Source (isDigitOrUnderscore inBase)

/-- Where the underscore at `i` stands in the bytes from `start` to `stop`: underscores aside, right
behind one digit and right before another. -/
structure BetweenDigits (src : Source) (digit : UInt8 → Bool) (start stop i : Nat) : Prop where
  before : ∃ j, start ≤ j ∧ j < i ∧ digit (src.byte j) = true ∧
    ∀ k, j < k → k < i → src.byte k = ch '_'
  after : ∃ j, i < j ∧ j < stop ∧ digit (src.byte j) = true ∧
    ∀ k, i < k → k < j → src.byte k = ch '_'

/-- The bytes that join the parts of a decimal body. -/
def isJoint (c : UInt8) : Bool :=
  c == ch '.' || c == ch 'e' || c == ch 'E' || c == ch '+' || c == ch '-'

/-- The text from `pos` to `stop` is a number: a body of digits of its base, with underscores
between digits only, and nothing or a word behind it. -/
structure WellFormedNumber (src : Source) (pos stop : Nat) : Prop where
  bounds : src.bodyEnd pos ≤ stop
  digit : ∃ i, src.digitsStart pos ≤ i ∧ i < src.bodyEnd pos ∧
    src.isBaseDigit pos (src.byte i) = true
  digits : ∀ i, src.digitsStart pos ≤ i → i < src.bodyEnd pos →
    src.isBaseDigit pos (src.byte i) = true ∨ src.byte i = ch '_' ∨
      src.hasPrefix pos = false ∧ isJoint (src.byte i) = true
  separators : ∀ i, src.digitsStart pos ≤ i → i < src.bodyEnd pos → src.byte i = ch '_' →
    BetweenDigits src (src.isBaseDigit pos) (src.digitsStart pos) (src.bodyEnd pos) i
  suffix : stop = src.bodyEnd pos ∨ isAlpha (src.byte (src.bodyEnd pos)) = true

/-- What `lex_number` takes: a body with a digit, no digit behind it, and an underscore at its end
before a letter only. -/
structure Accepted (src : Source) (pos : Nat) : Prop where
  digit : ∃ i, src.digitsStart pos ≤ i ∧ i < src.bodyEnd pos ∧ src.byte i ≠ ch '_'
  dangling : isDigit (src.byte (src.bodyEnd pos)) = false
  last : src.byte (src.bodyEnd pos - 1) = ch '_' → isAlpha (src.byte (src.bodyEnd pos)) = true

/-- An underscore right behind the prefix, next to the point, before the exponent or at the end. -/
def Misplaced (src : Source) (pos : Nat) : Prop :=
  src.byte (src.bodyEnd pos - 1) = ch '_' ∨
    if src.hasPrefix pos then src.byte (pos + 2) = ch '_'
    else src.byte (src.wholeEnd pos - 1) = ch '_' ∨ src.byte (src.mantissaEnd pos - 1) = ch '_' ∨
      src.hasFraction pos = true ∧ src.byte (src.wholeEnd pos + 1) = ch '_'

/-- The token made at a digit is a well-formed number or an error. -/
def NumberRight (src : Source) (s : LexState) : Prop :=
  ∃ kind, (src.lexNumber s).out =
      s.out ++ [⟨kind, src.spanAt s.pos ((src.lexNumber s).pos - s.pos)⟩] ∧
    (kind = .error ∨ (kind = .integer ∨ kind = .float) ∧
      WellFormedNumber src s.pos (src.lexNumber s).pos)

variable {src : Source} {s : LexState}

/-! ## Underscores -/

theorem BetweenDigits.first {digit : UInt8 → Bool} {start stop : Nat} :
    ¬ BetweenDigits src digit start stop start := by
  intro h
  obtain ⟨j, h1, h2, _⟩ := h.before
  omega

theorem BetweenDigits.last {digit : UInt8 → Bool} {start stop : Nat} (hstop : 0 < stop) :
    ¬ BetweenDigits src digit start stop (stop - 1) := by
  intro h
  obtain ⟨j, h1, h2, _⟩ := h.after
  omega

/-- A byte that is neither digit nor underscore does not stand right behind it. -/
theorem BetweenDigits.next {digit : UInt8 → Bool} {start stop i : Nat}
    (h : BetweenDigits src digit start stop i) :
    digit (src.byte (i + 1)) = true ∨ src.byte (i + 1) = ch '_' := by
  obtain ⟨j, h1, h2, hdigit, hrun⟩ := h.after
  obtain rfl | hlt := Nat.eq_or_lt_of_le h1
  · exact .inl hdigit
  · exact .inr (hrun _ (Nat.lt_succ_self i) hlt)

theorem BetweenDigits.previous {digit : UInt8 → Bool} {start stop i : Nat}
    (h : BetweenDigits src digit start stop (i + 1)) :
    digit (src.byte i) = true ∨ src.byte i = ch '_' := by
  obtain ⟨j, h1, h2, hdigit, hrun⟩ := h.before
  obtain rfl | hlt := Nat.eq_or_lt_of_le (Nat.le_of_lt_succ h2)
  · exact .inl hdigit
  · exact .inr (hrun _ hlt (Nat.lt_succ_self i))

/-- A part of digits and underscores that begins and ends with a digit. -/
structure Part (src : Source) (digit : UInt8 → Bool) (start stop : Nat) : Prop where
  lt : start < stop
  bytes : ∀ i, start ≤ i → i < stop → digit (src.byte i) = true ∨ src.byte i = ch '_'
  first : src.byte start ≠ ch '_'
  last : src.byte (stop - 1) ≠ ch '_'

theorem Part.before {digit : UInt8 → Bool} {start stop i : Nat} (h : Part src digit start stop)
    (hstart : start ≤ i) (hstop : i < stop) : src.byte i ≠ ch '_' ∨
      ∃ j, start ≤ j ∧ j < i ∧ digit (src.byte j) = true ∧
        ∀ k, j < k → k < i → src.byte k = ch '_' := by
  obtain ⟨n, rfl⟩ := Nat.exists_eq_add_of_le hstart
  clear hstart
  induction n with
  | zero => exact .inl h.first
  | succ n ih =>
    right
    obtain hdigit | hline := h.bytes (start + n) (by omega) (by omega)
    · exact ⟨start + n, by omega, by omega, hdigit, fun k h1 h2 => by omega⟩
    · obtain hne | ⟨j, h1, h2, hdigit, hrun⟩ := ih (by omega)
      · exact absurd hline hne
      · refine ⟨j, h1, by omega, hdigit, fun k h3 h4 => ?_⟩
        obtain rfl | hlt : k = start + n ∨ k < start + n := by omega
        · exact hline
        · exact hrun k h3 hlt

theorem Part.after {digit : UInt8 → Bool} {start stop i : Nat} (h : Part src digit start stop)
    (hstart : start ≤ i) (hstop : i < stop) : src.byte i ≠ ch '_' ∨
      ∃ j, i < j ∧ j < stop ∧ digit (src.byte j) = true ∧
        ∀ k, i < k → k < j → src.byte k = ch '_' := by
  obtain ⟨n, hn⟩ := Nat.exists_eq_add_of_lt hstop
  induction n generalizing i with
  | zero =>
    obtain rfl : i = stop - 1 := by omega
    exact .inl h.last
  | succ n ih =>
    right
    obtain hdigit | hline := h.bytes (i + 1) (by omega) (by omega)
    · exact ⟨i + 1, by omega, by omega, hdigit, fun k h1 h2 => by omega⟩
    · obtain hne | ⟨j, h1, h2, hdigit, hrun⟩ := ih (i := i + 1) (by omega) (by omega) (by omega)
      · exact absurd hline hne
      · refine ⟨j, by omega, h2, hdigit, fun k h3 h4 => ?_⟩
        obtain rfl | hlt : k = i + 1 ∨ i + 1 < k := by omega
        · exact hline
        · exact hrun k hlt h4

theorem Part.between {digit : UInt8 → Bool} {start stop i low high : Nat}
    (h : Part src digit start stop) (hlow : low ≤ start) (hhigh : stop ≤ high) (hstart : start ≤ i)
    (hstop : i < stop) (hline : src.byte i = ch '_') : BetweenDigits src digit low high i := by
  constructor
  · obtain hne | ⟨j, h1, h2, hrest⟩ := h.before hstart hstop
    · exact absurd hline hne
    · exact ⟨j, by omega, h2, hrest⟩
  · obtain hne | ⟨j, h1, h2, hrest⟩ := h.after hstart hstop
    · exact absurd hline hne
    · exact ⟨j, h1, by omega, hrest⟩

/-! ## What the lexer takes -/

theorem hasPrefix_bounds (hp : src.hasPrefix s.pos = true) : s.pos + 2 ≤ src.size ∧
    src.bodyEnd s.pos = src.skipWhile (inBase (src.byte (s.pos + 1))) (s.pos + 2) ∧
    s.pos + 2 ≤ src.bodyEnd s.pos ∧ src.bodyEnd s.pos ≤ src.size := by
  have hin : s.pos + 1 < src.size := by
    refine Source.lt_of_byte_ne fun h0 => ?_
    rw [Source.hasPrefix, h0, Bool.and_eq_true] at hp
    exact absurd hp.2 (by decide)
  have hend : src.bodyEnd s.pos = src.skipWhile (inBase (src.byte (s.pos + 1))) (s.pos + 2) := by
    rw [Source.bodyEnd, if_pos hp]
  exact ⟨hin, hend, hend ▸ src.le_skipWhile _ _, hend ▸ Source.skipWhile_le hin⟩

theorem accepted_prefixed_iff (hp : src.hasPrefix s.pos = true) : Accepted src s.pos ↔
    (src.slice (s.pos + 2) (src.bodyEnd s.pos)).all (· == ch '_') = false ∧
    ((src.slice (s.pos + 2) (src.bodyEnd s.pos)).getLast? == some (ch '_') &&
      !isAlpha (src.byte (src.bodyEnd s.pos))) = false ∧
    isDigit (src.byte (src.bodyEnd s.pos)) = false := by
  obtain ⟨_, _, _, hle⟩ := hasPrefix_bounds hp
  have hstart : src.digitsStart s.pos = s.pos + 2 := by rw [Source.digitsStart, if_pos hp]
  have hall : (src.slice (s.pos + 2) (src.bodyEnd s.pos)).all (· == ch '_') = false ↔
      ∃ i, src.digitsStart s.pos ≤ i ∧ i < src.bodyEnd s.pos ∧ src.byte i ≠ ch '_' := by
    rw [hstart, List.all_eq_false]
    constructor
    · intro ⟨c, hc, hne⟩
      obtain ⟨i, h1, h2, rfl⟩ := Source.mem_slice hle hc
      exact ⟨i, h1, h2, by simpa using hne⟩
    · intro ⟨i, h1, h2, hne⟩
      exact ⟨_, Source.byte_mem_slice hle h1 h2, by simpa using hne⟩
  have hlast (hlt : s.pos + 2 < src.bodyEnd s.pos) :
      ((src.slice (s.pos + 2) (src.bodyEnd s.pos)).getLast? == some (ch '_') &&
        !isAlpha (src.byte (src.bodyEnd s.pos))) = false ↔
      (src.byte (src.bodyEnd s.pos - 1) = ch '_' →
        isAlpha (src.byte (src.bodyEnd s.pos)) = true) := by
    rw [Source.getLast?_slice hlt hle]
    by_cases hline : src.byte (src.bodyEnd s.pos - 1) = ch '_' <;> simp [hline]
  constructor
  · intro ⟨hdigit, hdangling, hend⟩
    have hlt : s.pos + 2 < src.bodyEnd s.pos := by
      obtain ⟨i, h1, h2, _⟩ := hdigit
      omega
    exact ⟨hall.mpr hdigit, (hlast hlt).mpr hend, hdangling⟩
  · intro ⟨hdigit, hend, hdangling⟩
    have hdigit := hall.mp hdigit
    have hlt : s.pos + 2 < src.bodyEnd s.pos := by
      obtain ⟨i, h1, h2, _⟩ := hdigit
      omega
    exact ⟨hdigit, hdangling, (hlast hlt).mp hend⟩

/-- The decimal parts follow each other. -/
structure DecimalParts (src : Source) (pos : Nat) : Prop where
  whole : pos < src.wholeEnd pos
  mantissa : src.wholeEnd pos ≤ src.mantissaEnd pos
  fraction : src.hasFraction pos = true → src.wholeEnd pos < src.mantissaEnd pos
  noFraction : src.hasFraction pos = false → src.mantissaEnd pos = src.wholeEnd pos
  body : src.mantissaEnd pos ≤ src.bodyEnd pos
  exponent : src.hasExponent pos = true → isDigit (src.byte (src.exponentStart pos)) = true ∧
    src.exponentStart pos < src.bodyEnd pos ∧
    src.bodyEnd pos = src.skipWhile isDigitOrUnderscore (src.exponentStart pos)
  plain : src.hasExponent pos = false → src.bodyEnd pos = src.mantissaEnd pos

theorem digit_facts {c : UInt8} (h : isDigit c = true) :
    c ≠ 0 ∧ c ≠ ch '_' ∧ isDigitOrUnderscore c = true := by
  have := all_bytes (P := fun c => !isDigit c || (c != 0 && c != ch '_' && isDigitOrUnderscore c))
    (by decide +kernel) c
  simpa [h, and_assoc] using this

theorem lt_skipWhile_digit {pos : Nat} (h : isDigit (src.byte pos) = true) :
    pos < src.skipWhile isDigitOrUnderscore pos := by
  obtain ⟨hne, _, hdigit⟩ := digit_facts h
  rw [Source.skipWhile_of_pos (Source.lt_of_byte_ne hne) hdigit]
  exact src.le_skipWhile isDigitOrUnderscore (pos + 1)

theorem decimalParts {pos : Nat} (hp : src.hasPrefix pos = false)
    (h : isDigit (src.byte pos) = true) : DecimalParts src pos := by
  have hend : src.bodyEnd pos = (src.decimalEnd pos).1 := by
    rw [Source.bodyEnd, if_neg (by rw [hp]; decide)]
  rw [Source.decimalEnd_eq] at hend
  have hfraction := src.le_skipWhile isDigitOrUnderscore (src.wholeEnd pos + 1)
  have hexp : src.hasExponent pos = true →
      isDigit (src.byte (src.exponentStart pos)) = true := by
    intro he
    simp only [Source.hasExponent, Bool.and_eq_true, Bool.or_eq_true] at he
    unfold Source.exponentStart
    split
    · next hsigned =>
      obtain hd | ⟨_, hd⟩ := he.2
      · rw [Source.isSigned, Bool.or_eq_true, beq_iff_eq, beq_iff_eq] at hsigned
        obtain hs | hs := hsigned <;> rw [hs] at hd <;> exact absurd hd (by decide)
      · exact hd
    · next hsigned =>
      obtain hd | ⟨hs, _⟩ := he.2
      · exact hd
      · exact absurd hs hsigned
  have hstart : src.mantissaEnd pos < src.exponentStart pos := by
    unfold Source.exponentStart
    split <;> omega
  refine ⟨lt_skipWhile_digit h, ?_, ?_, ?_, ?_, ?_, ?_⟩
  · unfold Source.mantissaEnd
    split <;> omega
  · intro hf
    rw [Source.mantissaEnd, if_pos hf]
    omega
  · intro hf
    rw [Source.mantissaEnd, if_neg (by rw [hf]; decide)]
  · rw [hend]
    split
    · next he =>
      have := lt_skipWhile_digit (hexp he)
      show _ ≤ src.skipWhile _ _
      omega
    · exact Nat.le_refl _
  · intro he
    rw [if_pos he] at hend
    refine ⟨hexp he, ?_, hend⟩
    rw [hend]
    exact lt_skipWhile_digit (hexp he)
  · intro he
    rw [if_neg (by rw [he]; decide)] at hend
    exact hend

/-- A digit run ends at a byte that is neither a digit nor an underscore. -/
theorem not_digit_at_end (pos : Nat) :
    isDigitOrUnderscore (src.byte (src.skipWhile isDigitOrUnderscore pos)) = false :=
  Source.skipWhile_fails (by decide) pos

theorem not_digit_wholeEnd (pos : Nat) :
    isDigitOrUnderscore (src.byte (src.wholeEnd pos)) = false := not_digit_at_end pos

theorem not_digit_mantissaEnd (pos : Nat) :
    isDigitOrUnderscore (src.byte (src.mantissaEnd pos)) = false := by
  unfold Source.mantissaEnd
  split
  · exact not_digit_at_end _
  · exact not_digit_at_end _

theorem not_digit_bodyEnd {pos : Nat} (hp : src.hasPrefix pos = false) :
    isDigitOrUnderscore (src.byte (src.bodyEnd pos)) = false := by
  rw [Source.bodyEnd, if_neg (by rw [hp]; decide), Source.decimalEnd_eq]
  show isDigitOrUnderscore (src.byte (if _ then _ else _)) = false
  split
  · exact not_digit_at_end _
  · exact not_digit_mantissaEnd pos

theorem accepted_decimal_iff (hp : src.hasPrefix s.pos = false)
    (h : isDigit (src.byte s.pos) = true) : Accepted src s.pos ↔
      (src.byte (src.bodyEnd s.pos - 1) == ch '_' && !isAlpha (src.byte (src.bodyEnd s.pos))) =
        false := by
  have hparts := decimalParts hp h
  have hlt : s.pos < src.bodyEnd s.pos := by
    have h1 := hparts.whole
    have h2 := hparts.mantissa
    have h3 := hparts.body
    omega
  have hstart : src.digitsStart s.pos = s.pos := by
    rw [Source.digitsStart, if_neg (by rw [hp]; decide)]
  have hdangling : isDigit (src.byte (src.bodyEnd s.pos)) = false := by
    have := not_digit_bodyEnd hp
    rw [isDigitOrUnderscore, Bool.or_eq_false_iff] at this
    exact this.1
  constructor
  · intro haccepted
    have hlast := haccepted.last
    by_cases hline : src.byte (src.bodyEnd s.pos - 1) = ch '_' <;> simp [hline] at hlast ⊢
    exact hlast
  · intro hlast
    refine ⟨⟨s.pos, by omega, hlt, (digit_facts h).2.1⟩, hdangling, fun hline => ?_⟩
    simpa [hline] using hlast

theorem lexNumber_prefixed (hp : src.hasPrefix s.pos = true) : src.lexNumber s =
    if (src.slice (s.pos + 2) (src.bodyEnd s.pos)).all (· == ch '_') then
      src.invalidNumber s.pos (src.skipWhile isAlnumOrUnderscore (src.bodyEnd s.pos)) s
    else if (src.slice (s.pos + 2) (src.bodyEnd s.pos)).getLast? == some (ch '_') &&
        !isAlpha (src.byte (src.bodyEnd s.pos)) then
      src.invalidNumber s.pos (src.bodyEnd s.pos) s
    else if isDigit (src.byte (src.bodyEnd s.pos)) then
      src.invalidNumber s.pos (src.skipWhile isAlnumOrUnderscore (src.bodyEnd s.pos)) s
    else src.lexSuffix s.pos (src.skipWhile isAlnumOrUnderscore (src.bodyEnd s.pos)) false s := by
  rw [(hasPrefix_bounds hp).2.1]
  exact if_pos hp

theorem lexNumber_decimal (hp : src.hasPrefix s.pos = false) : src.lexNumber s =
    if src.byte (src.bodyEnd s.pos - 1) == ch '_' && !isAlpha (src.byte (src.bodyEnd s.pos)) then
      src.invalidNumber s.pos (src.bodyEnd s.pos) s
    else src.lexSuffix s.pos (src.bodyEnd s.pos) (src.decimalEnd s.pos).2 s := by
  rw [show src.bodyEnd s.pos = (src.decimalEnd s.pos).1 by
    rw [Source.bodyEnd, if_neg (by rw [hp]; decide)]]
  unfold Source.hasPrefix at hp
  exact if_neg (by rw [hp]; decide)

/-- What `lex_number` refuses becomes one error. -/
theorem lexNumber_rejected (h : isDigit (src.byte s.pos) = true) (ha : ¬ Accepted src s.pos) :
    ∃ stop, src.lexNumber s = src.invalidNumber s.pos stop s := by
  cases hp : src.hasPrefix s.pos with
  | true =>
    rw [accepted_prefixed_iff hp] at ha
    rw [lexNumber_prefixed hp]
    split
    · exact ⟨_, rfl⟩
    next hdigits =>
    split
    · exact ⟨_, rfl⟩
    next hlast =>
    split
    · exact ⟨_, rfl⟩
    next hdangling =>
    exact absurd ⟨Bool.eq_false_iff.mpr hdigits, Bool.eq_false_iff.mpr hlast,
      Bool.eq_false_iff.mpr hdangling⟩ ha
  | false =>
    rw [accepted_decimal_iff hp h, Bool.not_eq_false] at ha
    exact ⟨_, by rw [lexNumber_decimal hp, if_pos ha]⟩

/-- What it takes becomes a number, with the word behind the body for its suffix. -/
theorem lexNumber_accepted (h : isDigit (src.byte s.pos) = true) (ha : Accepted src s.pos) :
    src.lexNumber s =
      if src.hasPrefix s.pos then
        src.lexSuffix s.pos (src.skipWhile isAlnumOrUnderscore (src.bodyEnd s.pos)) false s
      else src.lexSuffix s.pos (src.bodyEnd s.pos) (src.decimalEnd s.pos).2 s := by
  cases hp : src.hasPrefix s.pos with
  | true =>
    obtain ⟨hdigits, hlast, hdangling⟩ := (accepted_prefixed_iff hp).mp ha
    rw [lexNumber_prefixed hp, hdigits, hlast, hdangling]
    rfl
  | false =>
    rw [lexNumber_decimal hp, (accepted_decimal_iff hp h).mp ha]
    rfl

/-! ## Where underscores go wrong -/

theorem isBaseDigit_iff {pos : Nat} {c : UInt8} :
    (src.isBaseDigit pos c = true ∨ c = ch '_') ↔
      (if src.hasPrefix pos then inBase (src.byte (pos + 1)) c else isDigitOrUnderscore c) =
        true := by
  unfold Source.isBaseDigit isDigitOrUnderscore
  by_cases hc : c = ch '_'
  · subst hc
    split <;> simp [inBase]
  · split <;> simp [hc]

theorem prefixed_part (hp : src.hasPrefix s.pos = true) (ha : Accepted src s.pos)
    (hm : ¬ Misplaced src s.pos) :
    Part src (src.isBaseDigit s.pos) (s.pos + 2) (src.bodyEnd s.pos) := by
  obtain ⟨_, hend, _, _⟩ := hasPrefix_bounds hp
  obtain ⟨i, h1, h2, _⟩ := ha.digit
  rw [Source.digitsStart, if_pos hp] at h1
  rw [Misplaced, if_pos hp, not_or] at hm
  refine ⟨by omega, fun i h1 h2 => ?_, hm.2, hm.1⟩
  rw [isBaseDigit_iff, if_pos hp]
  exact Source.skipWhile_all i h1 (hend ▸ h2)

/-- The places of a decimal body. -/
inductive DecimalPlace (src : Source) (pos i : Nat) : Prop
  | whole (hstart : pos ≤ i) (hstop : i < src.wholeEnd pos)
  | point (hf : src.hasFraction pos = true) (hi : i = src.wholeEnd pos)
  | fraction (hf : src.hasFraction pos = true) (hstart : src.wholeEnd pos + 1 ≤ i)
      (hstop : i < src.mantissaEnd pos)
  | letter (he : src.hasExponent pos = true) (hi : i = src.mantissaEnd pos)
  | sign (he : src.hasExponent pos = true) (hs : src.isSigned pos = true)
      (hi : i = src.mantissaEnd pos + 1)
  | exponent (he : src.hasExponent pos = true) (hstart : src.exponentStart pos ≤ i)
      (hstop : i < src.bodyEnd pos)

theorem DecimalParts.place {pos i : Nat} (h : DecimalParts src pos) (hstart : pos ≤ i)
    (hstop : i < src.bodyEnd pos) : DecimalPlace src pos i := by
  obtain hi | hi := Nat.lt_or_ge i (src.wholeEnd pos)
  · exact .whole hstart hi
  obtain hm | hm := Nat.lt_or_ge i (src.mantissaEnd pos)
  · cases hf : src.hasFraction pos with
    | true =>
      obtain heq | hlt := Nat.eq_or_lt_of_le hi
      · exact .point hf heq.symm
      · exact .fraction hf hlt hm
    | false =>
      have := h.noFraction hf
      omega
  · cases he : src.hasExponent pos with
    | true =>
      obtain hx | hx := Nat.lt_or_ge i (src.exponentStart pos)
      · unfold Source.exponentStart at hx
        split at hx
        · next hs =>
          obtain heq | hlt := Nat.eq_or_lt_of_le hm
          · exact .letter he heq.symm
          · exact .sign he hs (by omega)
        · exact .letter he (by omega)
      · exact .exponent he hx hstop
    | false =>
      have := h.plain he
      omega

theorem joint_of_place {pos i : Nat} (h : DecimalPlace src pos i) : isJoint (src.byte i) = true ∨
    (pos ≤ i ∧ i < src.wholeEnd pos) ∨
    (src.hasFraction pos = true ∧ src.wholeEnd pos + 1 ≤ i ∧ i < src.mantissaEnd pos) ∨
    (src.hasExponent pos = true ∧ src.exponentStart pos ≤ i ∧ i < src.bodyEnd pos) := by
  cases h with
  | whole hstart hstop => exact .inr (.inl ⟨hstart, hstop⟩)
  | fraction hf hstart hstop => exact .inr (.inr (.inl ⟨hf, hstart, hstop⟩))
  | exponent he hstart hstop => exact .inr (.inr (.inr ⟨he, hstart, hstop⟩))
  | point hf hi =>
    rw [Source.hasFraction, Bool.and_eq_true, beq_iff_eq] at hf
    rw [hi, hf.1]
    exact .inl rfl
  | letter he hi =>
    simp only [Source.hasExponent, Bool.and_eq_true, Bool.or_eq_true, beq_iff_eq] at he
    rw [hi]
    obtain hc | hc := he.1 <;> rw [hc] <;> exact .inl rfl
  | sign _ hs hi =>
    simp only [Source.isSigned, Bool.or_eq_true, beq_iff_eq] at hs
    rw [hi]
    obtain hc | hc := hs <;> rw [hc] <;> exact .inl rfl

/-- A run of digits is a part unless an underscore begins or ends it. -/
theorem part_of_run {pos start stop : Nat} (hp : src.hasPrefix pos = false) (hlt : start < stop)
    (hstop : stop = src.skipWhile isDigitOrUnderscore start) (hfirst : src.byte start ≠ ch '_')
    (hlast : src.byte (stop - 1) ≠ ch '_') : Part src (src.isBaseDigit pos) start stop := by
  refine ⟨hlt, fun i h1 h2 => ?_, hfirst, hlast⟩
  rw [isBaseDigit_iff, if_neg (by rw [hp]; decide)]
  exact Source.skipWhile_all i h1 (hstop ▸ h2)

theorem wellFormed_decimal {stop : Nat} (hp : src.hasPrefix s.pos = false)
    (h : isDigit (src.byte s.pos) = true) (hm : ¬ Misplaced src s.pos)
    (hbounds : src.bodyEnd s.pos ≤ stop)
    (hsuffix : stop = src.bodyEnd s.pos ∨ isAlpha (src.byte (src.bodyEnd s.pos)) = true) :
    WellFormedNumber src s.pos stop := by
  have hparts := decimalParts hp h
  have hwhole := hparts.whole
  have hmantissa := hparts.mantissa
  have hbody := hparts.body
  have hstart : src.digitsStart s.pos = s.pos := by
    rw [Source.digitsStart, if_neg (by rw [hp]; decide)]
  rw [Misplaced, if_neg (by rw [hp]; decide)] at hm
  simp only [not_or] at hm
  obtain ⟨hlast, hw, hmant, hfrac⟩ := hm
  have hdigit : src.isBaseDigit s.pos (src.byte s.pos) = true := by
    rw [Source.isBaseDigit, if_neg (by rw [hp]; decide), h, Bool.and_true]
    exact bne_iff_ne.mpr (digit_facts h).2.1
  have hfirst := part_of_run hp hwhole rfl (digit_facts h).2.1 hw
  have hsecond : src.hasFraction s.pos = true → src.wholeEnd s.pos + 1 < src.mantissaEnd s.pos →
      Part src (src.isBaseDigit s.pos) (src.wholeEnd s.pos + 1) (src.mantissaEnd s.pos) :=
    fun hf hlt => part_of_run hp hlt (if_pos hf) (fun hline => hfrac ⟨hf, hline⟩) hmant
  have hthird : src.hasExponent s.pos = true →
      Part src (src.isBaseDigit s.pos) (src.exponentStart s.pos) (src.bodyEnd s.pos) := by
    intro he
    obtain ⟨hd, hlt, hend⟩ := hparts.exponent he
    exact part_of_run hp hlt hend (digit_facts hd).2.1 hlast
  have hlow : src.hasExponent s.pos = true → s.pos ≤ src.exponentStart s.pos := by
    intro _
    unfold Source.exponentStart
    split <;> omega
  have hplace := fun i h1 h2 => joint_of_place (hparts.place (i := i) h1 h2)
  refine ⟨hbounds, ⟨s.pos, by omega, by omega, hdigit⟩, ?_, ?_, hsuffix⟩
  · rw [hstart]
    intro i h1 h2
    obtain hj | ⟨h3, h4⟩ | ⟨hf, h3, h4⟩ | ⟨he, h3, h4⟩ := hplace i h1 h2
    · exact .inr (.inr ⟨hp, hj⟩)
    · exact (hfirst.bytes i h3 h4).imp_right .inl
    · exact ((hsecond hf (by omega)).bytes i h3 h4).imp_right .inl
    · exact ((hthird he).bytes i h3 h4).imp_right .inl
  · rw [hstart]
    intro i h1 h2 hline
    obtain hj | ⟨h3, h4⟩ | ⟨hf, h3, h4⟩ | ⟨he, h3, h4⟩ := hplace i h1 h2
    · rw [hline] at hj
      exact absurd hj (by decide)
    · exact hfirst.between (Nat.le_refl _) (by omega) h3 h4 hline
    · exact (hsecond hf (by omega)).between (by omega) hbody h3 h4 hline
    · exact (hthird he).between (hlow he) (Nat.le_refl _) h3 h4 hline

theorem wellFormed_prefixed {stop : Nat} (hp : src.hasPrefix s.pos = true)
    (ha : Accepted src s.pos) (hm : ¬ Misplaced src s.pos) (hbounds : src.bodyEnd s.pos ≤ stop)
    (hsuffix : stop = src.bodyEnd s.pos ∨ isAlpha (src.byte (src.bodyEnd s.pos)) = true) :
    WellFormedNumber src s.pos stop := by
  have hstart : src.digitsStart s.pos = s.pos + 2 := by rw [Source.digitsStart, if_pos hp]
  have hpart := prefixed_part hp ha hm
  obtain ⟨i, h1, h2, hne⟩ := ha.digit
  rw [hstart] at h1
  refine ⟨hbounds, ⟨i, by omega, h2, (hpart.bytes i h1 h2).resolve_right hne⟩, ?_, ?_, hsuffix⟩
  · rw [hstart]
    intro i h1 h2
    exact (hpart.bytes i h1 h2).imp_right .inl
  · rw [hstart]
    intro i h1 h2 hline
    exact hpart.between (Nat.le_refl _) (Nat.le_refl _) h1 h2 hline

/-- A well-formed number has no underscore out of place. -/
theorem not_misplaced {stop : Nat} (h : isDigit (src.byte s.pos) = true)
    (hw : WellFormedNumber src s.pos stop) : ¬ Misplaced src s.pos := by
  obtain ⟨d, hd1, hd2, _⟩ := hw.digit
  have hlast : src.byte (src.bodyEnd s.pos - 1) ≠ ch '_' := fun hline =>
    BetweenDigits.last (by omega) (hw.separators _ (by omega) (by omega) hline)
  rw [Misplaced, not_or]
  refine ⟨hlast, ?_⟩
  cases hp : src.hasPrefix s.pos with
  | true =>
    have hstart : src.digitsStart s.pos = s.pos + 2 := by rw [Source.digitsStart, if_pos hp]
    rw [if_pos rfl]
    intro hline
    have hfirst := hw.separators (s.pos + 2) (by omega) (by omega) hline
    rw [hstart] at hfirst
    exact BetweenDigits.first hfirst
  | false =>
    have hstart : src.digitsStart s.pos = s.pos := by
      rw [Source.digitsStart, if_neg (by rw [hp]; decide)]
    have hparts := decimalParts hp h
    have h1 := hparts.whole
    have h2 := hparts.mantissa
    have h3 := hparts.body
    -- an underscore of the body stands next to digits and underscores only
    have hnext {i : Nat} (hi : s.pos < i) (hle : i ≤ src.bodyEnd s.pos)
        (hno : isDigitOrUnderscore (src.byte i) = false) : src.byte (i - 1) ≠ ch '_' := by
      intro hline
      obtain rfl | hlt := Nat.eq_or_lt_of_le hle
      · exact hlast hline
      · have hside := (hw.separators (i - 1) (by omega) (by omega) hline).next
        rw [Nat.sub_add_cancel (by omega), isBaseDigit_iff, if_neg (by rw [hp]; decide), hno]
          at hside
        cases hside
    rw [if_neg (by decide), not_or, not_or]
    refine ⟨hnext h1 (by omega) (not_digit_wholeEnd _),
      hnext (by omega) h3 (not_digit_mantissaEnd _), ?_⟩
    intro ⟨hf, hline⟩
    have hin : src.wholeEnd s.pos + 1 < src.size := Source.lt_of_byte_ne (by rw [hline]; decide)
    have hmore : src.wholeEnd s.pos + 1 < src.mantissaEnd s.pos := by
      rw [Source.mantissaEnd, if_pos hf, Source.skipWhile_of_pos hin (by rw [hline]; decide)]
      exact src.le_skipWhile isDigitOrUnderscore (src.wholeEnd s.pos + 1 + 1)
    have hside := (hw.separators _ (by omega) (by omega) hline).previous
    rw [isBaseDigit_iff, if_neg (by rw [hp]; decide), not_digit_wholeEnd] at hside
    cases hside

/-! ## Number tokens -/

theorem lexSuffix_end {start pos : Nat} {isFloat : Bool} (hno : isAlpha (src.byte pos) = false)
    (hline : src.byte pos ≠ ch '_') : (src.lexSuffix start pos isFloat s).pos = pos := by
  show (if _ then _ else _) = pos
  rw [if_neg (by simp [hno, hline])]

theorem le_lexSuffix {start pos : Nat} {isFloat : Bool} :
    pos ≤ (src.lexSuffix start pos isFloat s).pos := by
  show pos ≤ (if _ then _ else _)
  split
  · have := src.le_skipWhile isAlnumOrUnderscore (pos + 1)
    omega
  · exact Nat.le_refl _

theorem lexNumber_bounds (h : isDigit (src.byte s.pos) = true) (ha : Accepted src s.pos) :
    src.bodyEnd s.pos ≤ (src.lexNumber s).pos ∧
      ((src.lexNumber s).pos = src.bodyEnd s.pos ∨
        isAlpha (src.byte (src.bodyEnd s.pos)) = true) := by
  rw [lexNumber_accepted h ha]
  cases hp : src.hasPrefix s.pos with
  | true =>
    have hle := src.le_skipWhile isAlnumOrUnderscore (src.bodyEnd s.pos)
    rw [if_pos rfl]
    refine ⟨Nat.le_trans hle le_lexSuffix, ?_⟩
    cases halpha : isAlpha (src.byte (src.bodyEnd s.pos)) with
    | true => exact .inr rfl
    | false =>
      have hfails : inBase (src.byte (s.pos + 1)) (src.byte (src.bodyEnd s.pos)) = false := by
        rw [(hasPrefix_bounds hp).2.1]
        refine Source.skipWhile_fails ?_ _
        rw [inBase, if_neg (by decide)]
        split
        · rfl
        · split <;> rfl
      have hline : src.byte (src.bodyEnd s.pos) ≠ ch '_' := by
        intro hline
        rw [hline] at hfails
        cases hfails
      have hstop : src.skipWhile isAlnumOrUnderscore (src.bodyEnd s.pos) = src.bodyEnd s.pos :=
        Source.skipWhile_of_not fun _ => by simp [isAlnumOrUnderscore, halpha, ha.dangling, hline]
      rw [hstop]
      exact .inl (lexSuffix_end halpha hline)
  | false =>
    rw [if_neg (by decide)]
    refine ⟨le_lexSuffix, ?_⟩
    cases halpha : isAlpha (src.byte (src.bodyEnd s.pos)) with
    | true => exact .inr rfl
    | false =>
      have hno := not_digit_bodyEnd hp
      rw [isDigitOrUnderscore, Bool.or_eq_false_iff] at hno
      exact .inl (lexSuffix_end halpha (by simpa using hno.2))

/-- The token made at a digit, when its text is taken. -/
theorem lexNumber_out (h : isDigit (src.byte s.pos) = true) (ha : Accepted src s.pos) :
    ∃ kind, (kind = .integer ∨ kind = .float) ∧ (src.lexNumber s).out =
      s.out ++ [⟨kind, src.spanAt s.pos ((src.lexNumber s).pos - s.pos)⟩] := by
  have hsuffix (pos : Nat) (isFloat : Bool) :
      ∃ kind : TokenKind, (kind = .integer ∨ kind = .float) ∧
      (src.lexSuffix s.pos pos isFloat s).out = s.out ++
        [⟨kind, src.spanAt s.pos ((src.lexSuffix s.pos pos isFloat s).pos - s.pos)⟩] := by
    refine ⟨if isFloat then .float else .integer, ?_, rfl⟩
    cases isFloat with
    | true => exact .inr rfl
    | false => exact .inl rfl
  rw [lexNumber_accepted h ha]
  split
  · exact hsuffix _ _
  · exact hsuffix _ _

/-- At a digit, the lexer makes a well-formed number or an error exactly where no underscore that it
takes is out of place. -/
theorem numberRight_iff (h : isDigit (src.byte s.pos) = true) :
    NumberRight src s ↔ ¬ (Accepted src s.pos ∧ Misplaced src s.pos) := by
  by_cases ha : Accepted src s.pos
  · obtain ⟨kind, hkind, hout⟩ := lexNumber_out h ha
    obtain ⟨hbounds, hsuffix⟩ := lexNumber_bounds h ha
    constructor
    · intro ⟨kind', hout', hright⟩ ⟨_, hm⟩
      obtain rfl := kind_unique hout hout'
      obtain rfl | ⟨_, hw⟩ := hright
      · obtain hk | hk := hkind <;> cases hk
      · exact not_misplaced h hw hm
    · intro hno
      have hm : ¬ Misplaced src s.pos := fun hm => hno ⟨ha, hm⟩
      refine ⟨kind, hout, .inr ⟨hkind, ?_⟩⟩
      cases hp : src.hasPrefix s.pos with
      | true => exact wellFormed_prefixed hp ha hm hbounds hsuffix
      | false => exact wellFormed_decimal hp h hm hbounds hsuffix
  · obtain ⟨stop, hstop⟩ := lexNumber_rejected h ha
    refine iff_of_true ?_ fun hboth => ha hboth.1
    rw [NumberRight, hstop]
    exact ⟨.error, rfl, .inl rfl⟩

/-- The kinds of words and symbols. -/
def isNumberKind : TokenKind → Bool
  | .integer | .float => true
  | _ => false

theorem symbolKind_not_number (c n m : UInt8) : ∀ kind width,
    Source.symbolKind c n m = some (kind, width) → isNumberKind kind = false := by
  have hite : ∀ {p : Bool} {a b : Option (TokenKind × Nat)},
      (∀ kind width, a = some (kind, width) → isNumberKind kind = false) →
      (∀ kind width, b = some (kind, width) → isNumberKind kind = false) →
      ∀ kind width, (if p then a else b) = some (kind, width) → isNumberKind kind = false := by
    intro p a b ha hb
    cases p with
    | true => exact ha
    | false => exact hb
  unfold Source.symbolKind
  repeat' refine hite ?_ ?_
  all_goals
    intro kind width hk
    cases hk
  all_goals rfl

/-- A token that is no number. -/
def MakesOther (s s' : LexState) : Prop :=
  ∃ kind span, s'.out = s.out ++ [⟨kind, span⟩] ∧ isNumberKind kind = false

theorem makesOther_error (start length code : Nat) (message : String) (pos : Nat) :
    MakesOther s (src.emitError start length code message { s with pos }) :=
  ⟨.error, _, rfl, rfl⟩

theorem MakesOther.ite {p : Bool} {a b : LexState} (ha : MakesOther s a) (hb : MakesOther s b) :
    MakesOther s (if p then a else b) := by
  cases p with
  | true => exact ha
  | false => exact hb

theorem lexToken_digit (h : isDigit (src.byte s.pos) = true) :
    src.lexToken s = some (src.lexNumber s) := by
  have hfacts := all_bytes (P := fun c => !isDigit c || !(c == 0 || isAlpha c || c == ch '_'))
    (by decide +kernel) (src.byte s.pos)
  simp only [h, Bool.not_true, Bool.false_or, Bool.not_eq_true', Bool.or_eq_false_iff] at hfacts
  unfold Source.lexToken
  simp [h, hfacts]

/-- Only `lex_number` makes numbers. -/
theorem lexToken_other {s' : LexState} (h : isDigit (src.byte s.pos) = false)
    (hrun : src.lexToken s = some s') : MakesOther s s' := by
  have hkeyword : ∀ keyword ∈ kKeywords, isNumberKind keyword.2 = false := by decide
  unfold Source.lexToken at hrun
  dsimp only at hrun
  split at hrun
  · rw [← Option.some.inj hrun]
    exact ⟨.error, _, rfl, rfl⟩
  split at hrun
  · rw [← Option.some.inj hrun]
    refine ⟨_, _, rfl, ?_⟩
    split
    · rfl
    unfold lookupKeyword
    cases hfind : kKeywords.find? fun keyword => bytesOf keyword.1 == _ with
    | none => rfl
    | some keyword => exact hkeyword keyword (List.mem_of_find?_eq_some hfind)
  rw [h, if_neg Bool.false_ne_true] at hrun
  split at hrun
  · unfold Source.lexString at hrun
    obtain ⟨⟨stop, f⟩, -, hrun⟩ := Option.bind_eq_some_iff.1 hrun
    rw [← Option.some.inj hrun]
    exact (makesOther_error _ _ _ _ _).ite ((makesOther_error _ _ _ _ _).ite ⟨.string, _, rfl, rfl⟩)
  split at hrun
  · unfold Source.lexChar at hrun
    obtain ⟨⟨stop, f⟩, -, hrun⟩ := Option.bind_eq_some_iff.1 hrun
    rw [← Option.some.inj hrun]
    exact (makesOther_error _ _ _ _ _).ite
      ((makesOther_error _ _ _ _ _).ite ((makesOther_error _ _ _ _ _).ite ⟨.char, _, rfl, rfl⟩))
  · rw [← Option.some.inj hrun, Source.lexSymbol]
    cases hrow : Source.symbolKind (src.byte s.pos) (src.byte (s.pos + 1))
        (src.byte (s.pos + 2)) with
    | none => exact ⟨.error, _, rfl, rfl⟩
    | some row => exact ⟨row.1, _, rfl, symbolKind_not_number _ _ _ row.1 row.2 hrow⟩

/-- Where a number token comes from. -/
def MadeAtDigit (src : Source) (token : Token) : Prop :=
  ∃ s, Course src .start s ∧ isDigit (src.byte s.pos) = true ∧
    (src.lexNumber s).out = s.out ++ [token]

theorem round_numbers {u : LexState} (hs : Course src .start s) (hin : src.atEnd s.pos = false)
    (hrun : src.round s = some u)
    (h : ∀ token ∈ s.out, isNumberKind token.kind = true → MadeAtDigit src token) :
    ∀ token ∈ u.out, isNumberKind token.kind = true → MadeAtDigit src token := by
  have hsnoc {kind : TokenKind} {span : Diag.Span} (hout : u.out = s.out ++ [⟨kind, span⟩])
      (hnew : isNumberKind kind = true → MadeAtDigit src ⟨kind, span⟩) :
      ∀ token ∈ u.out, isNumberKind token.kind = true → MadeAtDigit src token := by
    rw [hout]
    intro token htoken hkind
    obtain hold | hnew' := List.mem_append.1 htoken
    · exact h token hold hkind
    · obtain rfl := List.mem_singleton.1 hnew'
      exact hnew hkind
  cases round_cases hin hrun with
  | space _ _ hout =>
    obtain hsame | hnl := hout
    · rw [hsame]
      exact h
    have hnewline : src.newline s = some u := by
      rw [← hrun, Source.round, hnl]
      rfl
    obtain ⟨-, ⟨-, -, hsemi⟩ | ⟨-, hsame⟩⟩ := newline_cases hnewline
    · exact hsnoc hsemi fun hkind => absurd hkind Bool.false_ne_true
    · rw [hsame]
      exact h
  | comment _ _ hsame =>
    rw [hsame]
    exact h
  | token kind span hat hout hdoc hunfinished hcode =>
    refine hsnoc hout fun hkind => ?_
    obtain hno | hopens | hopen := hat.2
    · have hlex := hcode hno
      cases hd : isDigit (src.byte s.pos) with
      | true =>
        rw [lexToken_digit hd, Option.some.injEq] at hlex
        exact ⟨s, hs, hd, hlex ▸ hout⟩
      | false =>
        obtain ⟨k, span', hout', hk⟩ := lexToken_other hd hlex
        rw [kind_unique hout hout', hk] at hkind
        cases hkind
    · rw [hdoc hopens] at hkind
      cases hkind
    · rw [hunfinished hopen] at hkind
      cases hkind

theorem course_numbers {u : LexState} (hrest : Course src u s) (hu : Course src .start u)
    (h : ∀ token ∈ u.out, isNumberKind token.kind = true → MadeAtDigit src token) :
    ∀ token ∈ s.out, isNumberKind token.kind = true → MadeAtDigit src token := by
  induction hrest with
  | refl => exact h
  | step hin hrun _ ih =>
    exact ih (hu.trans (.step hin hrun (.refl _))) (round_numbers hu hin hrun h)

/-- Every number token of the text is well formed, and every other text that a digit leads is an
error. -/
def NumbersRight (src : Source) : Prop :=
  ∀ s, Course src .start s → isDigit (src.byte s.pos) = true → NumberRight src s

/-- **Numbers.** All number tokens are made at digits that the lexer comes to. There it makes a
well-formed number or an error, exactly where no text that it takes has an underscore right behind
its prefix, next to its point, before its exponent or at the end of its body. -/
theorem numbersRight_iff (src : Source) :
    (∀ t, src.tokenize = some t → ∀ token ∈ t.out, token.kind = .integer ∨ token.kind = .float →
      MadeAtDigit src token) ∧
    (NumbersRight src ↔ ∀ s, Course src .start s → isDigit (src.byte s.pos) = true →
      ¬ (Accepted src s.pos ∧ Misplaced src s.pos)) := by
  constructor
  · intro t ht token htoken hkind
    obtain ⟨e, he, _, rfl, _⟩ := tokenize_course ht
    have hnumber : isNumberKind token.kind = true := by
      obtain hk | hk := hkind <;> rw [hk] <;> rfl
    obtain hold | heof := List.mem_append.1 htoken
    · exact course_numbers he (.refl _) (fun _ hnil => (nomatch hnil)) token hold hnumber
    · rw [List.mem_singleton.1 heof] at hnumber
      cases hnumber
  · constructor
    · exact fun h s hs hd => (numberRight_iff hd).mp (h s hs hd)
    · exact fun h s hs hd => (numberRight_iff hd).mpr (h s hs hd)

/-- `0x_1 1_.5` -/
def misplaced : Source := ⟨bytesOf "0x_1 1_.5", 0⟩

/-- Both are taken for numbers. -/
theorem misplaced_not_right : (misplaced.tokenize.map fun t => t.out.map (·.kind)) =
    some [.integer, .float, .eof] ∧ ¬ NumbersRight misplaced := by
  refine ⟨by decide, fun h => ?_⟩
  obtain ⟨kind, hout, hright⟩ := h .start (.refl _) (by decide)
  have hmade : (misplaced.lexNumber .start).out = [] ++ [⟨.integer, ⟨0, 0, 4⟩⟩] := by decide
  obtain rfl := kind_unique hout hmade
  obtain hk | ⟨_, hw⟩ := hright
  · cases hk
  · exact not_misplaced (s := .start) (by decide) hw (.inr (by decide))

end Alcy.Lexer
