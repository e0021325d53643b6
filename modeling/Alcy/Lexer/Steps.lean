import Alcy.Lexer.Shape

/-! # One step of the lexer

Each branch either appends one token that spans exactly the bytes it moved over,
or appends nothing and moved over whitespace or a comment. Only the literal loops
can leave the input, and `cutOff` says when. -/
namespace Alcy.Lexer
open Source (inBase isBlank isDigitOrUnderscore scalarWidth symbolKind)

variable {src : Source}

/-- A step that appends one token for the bytes it moved over. -/
structure Lexes (src : Source) (s s' : LexState) : Prop where
  token : ∃ kind, s'.out = s.out ++ [⟨kind, src.spanAt s.pos (s'.pos - s.pos)⟩]
  lt : s.pos < s'.pos
  moves : Moves src s.pos s'.pos

theorem lexes_push {s : LexState} {stop : Nat} (kind : TokenKind) (hlt : s.pos < stop)
    (hm : Moves src s.pos stop) :
    Lexes src s (src.pushSignificant kind s.pos (stop - s.pos) { s with pos := stop }) :=
  ⟨⟨kind, rfl⟩, hlt, hm⟩

theorem lexes_error {s : LexState} {stop : Nat} (code : Nat) (message : String)
    (hlt : s.pos < stop) (hm : Moves src s.pos stop) :
    Lexes src s (src.emitError s.pos (stop - s.pos) code message { s with pos := stop }) :=
  ⟨⟨.error, rfl⟩, hlt, hm⟩

/-! ## Identifiers, numbers, symbols -/

theorem lexIdentifier_lexes {s : LexState}
    (h : isAlnumOrUnderscore (src.byte s.pos) = true) : Lexes src s (src.lexIdentifier s) := by
  have hsync : Sync src s.pos (src.skipWhile isAlnumOrUnderscore (s.pos + 1)) :=
    (Sync.plain (plain_of_alnum h)).skipWhile fun _ => plain_of_alnum
  have hlt := Source.lt_of_byte_ne (plain_ne_zero (plain_of_alnum h))
  have hle := src.le_skipWhile isAlnumOrUnderscore (s.pos + 1)
  rw [← Source.skipWhile_of_pos hlt h] at hsync hle
  exact lexes_push _ (by omega) (.inl hsync)

theorem lexSuffix_lexes {s : LexState} {pos : Nat} {isFloat : Bool} (hlt : s.pos < pos)
    (hs : Sync src s.pos pos) : Lexes src s (src.lexSuffix s.pos pos isFloat s) := by
  unfold Source.lexSuffix
  by_cases hc : (!src.atEnd pos && (isAlpha (src.byte pos) || src.byte pos == ch '_')) = true
  · simp only [hc, if_true]
    have ha : isAlnumOrUnderscore (src.byte pos) = true := by
      simp only [Bool.and_eq_true, Bool.or_eq_true] at hc
      rcases hc.2 with h | h <;> simp [isAlnumOrUnderscore, h]
    have hle := src.le_skipWhile isAlnumOrUnderscore (pos + 1)
    exact lexes_push _ (by omega)
      (.inl ((hs.step (plain_of_alnum ha)).skipWhile fun _ => plain_of_alnum))
  · simp only [hc, if_false, Bool.false_eq_true]
    exact lexes_push _ hlt (.inl hs)

theorem invalidNumber_lexes {s : LexState} {stop : Nat} (hlt : s.pos < stop)
    (hs : Sync src s.pos stop) : Lexes src s (src.invalidNumber s.pos stop s) :=
  lexes_error _ _ hlt (.inl hs)

theorem lexPrefixed_lexes {s : LexState} (h0 : src.byte s.pos = ch '0')
    (hb : plain (src.byte (s.pos + 1)) = true) : Lexes src s (src.lexPrefixed s) := by
  have hbody : Sync src s.pos (s.pos + 2) := (Sync.plain (by rw [h0]; decide)).step hb
  have hstop : Sync src s.pos (src.skipWhile (inBase (src.byte (s.pos + 1))) (s.pos + 2)) :=
    hbody.skipWhile fun _ => plain_of_inBase
  have hle := src.le_skipWhile (inBase (src.byte (s.pos + 1))) (s.pos + 2)
  have htail := hstop.skipWhile fun _ => plain_of_alnum
  have hle' := src.le_skipWhile isAlnumOrUnderscore
    (src.skipWhile (inBase (src.byte (s.pos + 1))) (s.pos + 2))
  unfold Source.lexPrefixed
  dsimp only
  split
  · exact invalidNumber_lexes (by omega) htail
  split
  · exact invalidNumber_lexes (by omega) hstop
  split
  · exact invalidNumber_lexes (by omega) htail
  · exact lexSuffix_lexes (by omega) htail

theorem plain_of_eq {c d : UInt8} (h : c = d) (hd : plain d = true) : plain c = true := h ▸ hd

theorem lexDecimal_lexes {s : LexState} (h : isDigit (src.byte s.pos) = true) :
    Lexes src s (src.lexDecimal s) := by
  have hdig : ∀ c, isDigitOrUnderscore c = true → plain c = true := fun _ => plain_of_digit
  have h0 : isDigitOrUnderscore (src.byte s.pos) = true := by simp [isDigitOrUnderscore, h]
  have hlt := Source.lt_of_byte_ne (plain_ne_zero (plain_of_digit h0))
  -- the three parts are scanned one after the other, each in plain code
  obtain ⟨whole, hw⟩ : ∃ whole, whole = src.skipWhile isDigitOrUnderscore s.pos := ⟨_, rfl⟩
  have hwhole : Sync src s.pos whole ∧ s.pos < whole := by
    rw [hw, Source.skipWhile_of_pos hlt h0]
    have := src.le_skipWhile isDigitOrUnderscore (s.pos + 1)
    exact ⟨(Sync.plain (plain_of_digit h0)).skipWhile hdig, by omega⟩
  unfold Source.lexDecimal
  simp only [← hw]
  obtain ⟨frac, hf⟩ : ∃ frac, frac =
    (src.byte whole == ch '.' && src.byte (whole + 1) != ch '.') := ⟨_, rfl⟩
  simp only [← hf]
  obtain ⟨mantissa, hm⟩ : ∃ mantissa, mantissa =
    if frac then src.skipWhile isDigitOrUnderscore (whole + 1) else whole := ⟨_, rfl⟩
  have hmant : Sync src s.pos mantissa ∧ s.pos < mantissa := by
    cases frac with
    | false => rw [hm]; exact hwhole
    | true =>
      have hdot : src.byte whole = ch '.' := by
        simp only [Bool.true_eq, Bool.and_eq_true, beq_iff_eq] at hf
        exact hf.1
      have := src.le_skipWhile isDigitOrUnderscore (whole + 1)
      rw [hm]
      exact ⟨(hwhole.1.step (plain_of_eq hdot (by decide))).skipWhile hdig,
        by simp only [if_true]; omega⟩
  simp only [← hm]
  obtain ⟨signed, hsg⟩ : ∃ signed, signed =
    (src.byte (mantissa + 1) == ch '+' || src.byte (mantissa + 1) == ch '-') := ⟨_, rfl⟩
  simp only [← hsg]
  obtain ⟨expo, he⟩ : ∃ expo, expo =
    ((src.byte mantissa == ch 'e' || src.byte mantissa == ch 'E') &&
      (isDigit (src.byte (mantissa + 1)) || (signed && isDigit (src.byte (mantissa + 2))))) :=
    ⟨_, rfl⟩
  simp only [← he]
  obtain ⟨stop, hs⟩ : ∃ stop, stop = if expo then
    src.skipWhile isDigitOrUnderscore (if signed then mantissa + 2 else mantissa + 1)
    else mantissa := ⟨_, rfl⟩
  have hstop : Sync src s.pos stop ∧ s.pos < stop := by
    cases expo with
    | false => rw [hs]; exact hmant
    | true =>
      simp only [Bool.true_eq, Bool.and_eq_true, Bool.or_eq_true, beq_iff_eq] at he
      have hexp : Sync src s.pos (mantissa + 1) := by
        rcases he.1 with h | h <;> exact hmant.1.step (plain_of_eq h (by decide))
      rw [hs]
      simp only [if_true]
      cases signed with
      | false =>
        have := src.le_skipWhile isDigitOrUnderscore (mantissa + 1)
        exact ⟨hexp.skipWhile hdig, by simp only [Bool.false_eq_true, if_false]; omega⟩
      | true =>
        have hsign : Sync src s.pos (mantissa + 2) := by
          simp only [Bool.true_eq, Bool.or_eq_true, beq_iff_eq] at hsg
          rcases hsg with h | h <;> exact hexp.step (plain_of_eq h (by decide))
        have := src.le_skipWhile isDigitOrUnderscore (mantissa + 2)
        exact ⟨hsign.skipWhile hdig, by simp only [if_true]; omega⟩
  simp only [← hs]
  split
  · exact invalidNumber_lexes hstop.2 hstop.1
  · exact lexSuffix_lexes hstop.2 hstop.1

theorem lexNumber_lexes {s : LexState} (h : isDigit (src.byte s.pos) = true) :
    Lexes src s (src.lexNumber s) := by
  unfold Source.lexNumber
  dsimp only
  split
  · next hc =>
    simp only [Bool.and_eq_true, Bool.or_eq_true, beq_iff_eq] at hc
    obtain ⟨h0, hb⟩ := hc
    refine lexPrefixed_lexes h0 ?_
    rcases hb with ((((hb | hb) | hb) | hb) | hb) | hb <;> exact plain_of_eq hb (by decide)
  · exact lexDecimal_lexes h

theorem invalidScalar_lexes {s : LexState} (hlt : s.pos < src.size)
    (hcut : src.cut .code s.pos = src.cut .code (s.pos + scalarWidth (src.byte s.pos))) :
    Lexes src s (src.invalidScalar s) := by
  have hw := scalarWidth_pos (src.byte s.pos)
  obtain ⟨scalar, hs⟩ : ∃ scalar, scalar =
    if s.pos + scalarWidth (src.byte s.pos) > src.size then src.size - s.pos
    else scalarWidth (src.byte s.pos) := ⟨_, rfl⟩
  have hsync : Sync src s.pos (s.pos + scalar) ∧ 1 ≤ scalar := by
    rw [hs]
    split
    · have hstop : s.pos + (src.size - s.pos) = src.size := by omega
      refine ⟨⟨by omega, by omega, ?_⟩, by omega⟩
      rw [hcut, hstop, cut_of_le (by omega), cut_of_le (Nat.le_refl _)]
    · exact ⟨⟨by omega, by omega, hcut⟩, hw⟩
  have herr := @lexes_error src s _ kLexerInvalidChar "invalid character"
    (Nat.lt_add_of_pos_right hsync.2) (.inl hsync.1)
  rw [Nat.add_sub_cancel_left, hs] at herr
  exact herr

/-- No comment starts at `pos`. -/
def NoComment (src : Source) (pos : Nat) : Prop :=
  ¬ (src.byte pos = ch '/' ∧ (src.byte (pos + 1) = ch '/' ∨ src.byte (pos + 1) = ch '*'))

theorem cut_code_symbol {pos : Nat} (hlt : pos < src.size) (hno : NoComment src pos)
    (h1 : src.byte pos ≠ ch '"') (h2 : src.byte pos ≠ ch '\'') :
    src.cut .code pos = src.cut .code (pos + scalarWidth (src.byte pos)) := by
  rw [cut_code hlt]
  by_cases hs : src.byte pos = ch '/'
  · have : ¬ src.byte (pos + 1) = ch '/' := fun h => hno ⟨hs, .inl h⟩
    have : ¬ src.byte (pos + 1) = ch '*' := fun h => hno ⟨hs, .inr h⟩
    simp_all
  · simp [hs, h1, h2]

theorem lexSymbol_lexes {s : LexState} (hlt : s.pos < src.size) (hno : NoComment src s.pos)
    (h1 : src.byte s.pos ≠ ch '"') (h2 : src.byte s.pos ≠ ch '\'') :
    Lexes src s (src.lexSymbol s) := by
  have hcut := cut_code_symbol hlt hno h1 h2
  unfold Source.lexSymbol
  cases hk : symbolKind (src.byte s.pos) (src.byte (s.pos + 1)) (src.byte (s.pos + 2)) with
  | none => exact invalidScalar_lexes hlt hcut
  | some r =>
    obtain ⟨kind, width⟩ := r
    obtain ⟨_, _, _, hsc, hw, hn, hm, hw3⟩ := symbolKind_ok _ _ _ kind width hk
    have hone : Sync src s.pos (s.pos + 1) := ⟨by omega, hlt, hsc ▸ hcut⟩
    have hsync : Sync src s.pos (s.pos + width) := by
      obtain rfl | rfl | rfl : width = 1 ∨ width = 2 ∨ width = 3 := by omega
      · exact hone
      · exact hone.step (hn (by omega))
      · exact (hone.step (hn (by omega))).step (hm (by omega))
    have hpush := @lexes_push src s _ kind (by omega) (.inl hsync)
    rwa [Nat.add_sub_cancel_left] at hpush

/-! ## String and character literals -/

/-- How a literal loop may end: in code again, or one past the end of the input. -/
def Ends (src : Source) (quote : UInt8) (start stop : Nat) : Prop :=
  start ≤ stop ∧ (stop ≤ src.size ∧ src.cut (.literal quote) start = src.cut .code stop ∨
    stop = src.size + 1 ∧ src.cut (.literal quote) start = true)

theorem Ends.of_cut {quote : UInt8} {a b stop : Nat} (hab : a ≤ b)
    (hc : src.cut (.literal quote) a = src.cut (.literal quote) b) (h : Ends src quote b stop) :
    Ends src quote a stop := by
  obtain ⟨hle, h⟩ := h
  rw [← hc] at h
  exact ⟨by omega, h⟩

theorem cut_literal_plain {quote : UInt8} {pos : Nat} (hlt : pos < src.size)
    (h1 : src.byte pos ≠ quote) (h2 : src.byte pos ≠ ch '\n') (h3 : src.byte pos ≠ ch '\\') :
    src.cut (.literal quote) pos = src.cut (.literal quote) (pos + 1) := by
  simp [cut_literal hlt, h1, h2, h3]

/-- The braces and digits of a `\u` escape are ordinary bytes of the literal. -/
theorem unicodeEscape_cut {quote : UInt8} (hq : quote = ch '"' ∨ quote = ch '\'')
    {pos next : Nat} (h : src.unicodeEscape pos = some next) :
    pos + 2 ≤ next ∧ next ≤ src.size ∧
      src.cut (.literal quote) (pos + 2) = src.cut (.literal quote) next := by
  have hord : ∀ c, c = ch '\x7b' ∨ c = ch '\x7d' ∨ isHexDigit c = true →
      c ≠ 0 ∧ c ≠ quote ∧ c ≠ ch '\n' ∧ c ≠ ch '\\' := by
    intro c hc
    have hb := all_bytes (P := fun c => !(c == ch '\x7b' || c == ch '\x7d' || isHexDigit c) ||
      (c != 0 && c != ch '"' && c != ch '\'' && c != ch '\n' && c != ch '\\')) (by decide +kernel) c
    rcases hq with rfl | rfl <;> rcases hc with hc | hc | hc <;> simp [hc] at hb <;> simp_all
  have hstep : ∀ i, (src.byte i = ch '\x7b' ∨ src.byte i = ch '\x7d' ∨
      isHexDigit (src.byte i) = true) → i < src.size ∧
      src.cut (.literal quote) i = src.cut (.literal quote) (i + 1) := by
    intro i hi
    obtain ⟨h0, h1, h2, h3⟩ := hord _ hi
    have hlt := Source.lt_of_byte_ne h0
    exact ⟨hlt, cut_literal_plain hlt h1 h2 h3⟩
  unfold Source.unicodeEscape at h
  split at h
  · next hopen =>
    dsimp only at h
    split at h
    · next hclose =>
      cases h
      simp only [Bool.and_eq_true, bne_iff_ne, ne_eq, beq_iff_eq] at hopen hclose
      have ho := hstep _ (.inl hopen)
      have hc := hstep _ (.inr (.inl hclose.2))
      have hh : src.cut (.literal quote) (pos + 3) =
          src.cut (.literal quote) (src.skipWhile isHexDigit (pos + 3)) :=
        Source.skipWhile_induct
          (P := fun i => src.cut (.literal quote) (pos + 3) = src.cut (.literal quote) i) rfl
          fun i _ hx hi => hi.trans (hstep i (.inr (.inr hx))).2
      have := src.le_skipWhile isHexDigit (pos + 3)
      exact ⟨by omega, by omega, ho.2.trans (hh.trans hc.2)⟩
    · cases h
  · cases h

theorem scanLiteral_spec {quote : UInt8} (hq : quote = ch '"' ∨ quote = ch '\'') :
    ∀ (fuel pos : Nat) (f : Source.Scan), pos ≤ src.size → src.size - pos < fuel →
      ∃ stop f', src.scanLiteral quote fuel pos f = some (stop, f') ∧ Ends src quote pos stop := by
  intro fuel
  induction fuel with
  | zero => intro pos f _ h; omega
  | succ fuel ih =>
    intro pos f hle hfuel
    unfold Source.scanLiteral
    split
    · next hend =>
      rw [Source.atEnd_eq_true] at hend
      exact ⟨pos, f, rfl, Nat.le_refl _, .inl ⟨hle, by rw [cut_of_le hend, cut_of_le hend]⟩⟩
    next hend =>
    have hlt : pos < src.size := by simpa using hend
    dsimp only
    split
    · next hc =>
      exact ⟨pos + 1, _, rfl, by omega, .inl ⟨hlt, by simp [cut_literal hlt, beq_iff_eq.mp hc]⟩⟩
    next hquote =>
    split
    · next hnl =>
      have hnl := beq_iff_eq.mp hnl
      have hcode := Sync.plain (plain_of_eq hnl (by decide))
      exact ⟨pos, f, rfl, Nat.le_refl _, .inl ⟨hle, by rw [hcode.cut]; simp [cut_literal hlt, hnl]⟩⟩
    next hnl =>
    split
    · next hesc =>
      have hbs : Sync src pos (pos + 1) := .plain (plain_of_eq (beq_iff_eq.mp hesc) (by decide))
      have hlit : src.cut (.literal quote) pos = if src.size ≤ pos + 1 then true
          else src.cut (if src.byte (pos + 1) == ch '\n' then .code else .literal quote)
            (pos + 2) := by
        rw [cut_literal hlt, if_neg (by simp_all), if_pos hesc]
      split
      · next hn =>
        -- the loop stops before the backslash, which then is an invalid character
        have hn := beq_iff_eq.mp hn
        have hnext : Sync src (pos + 1) (pos + 2) := .plain (plain_of_eq hn (by decide))
        refine ⟨pos, f, rfl, Nat.le_refl _, .inl ⟨hle, ?_⟩⟩
        rw [hlit, hbs.cut, hnext.cut, if_neg (by have := hnext.inside; omega), hn]
        rfl
      next hn =>
      have hskip : ∀ f', ∃ stop f'', src.scanLiteral quote fuel (pos + 2) f' = some (stop, f'') ∧
          Ends src quote pos stop := by
        intro f'
        rcases Nat.lt_or_ge (pos + 1) src.size with h1 | h1
        · obtain ⟨stop, f'', hrun, hends⟩ := ih (pos + 2) f' (by omega) (by omega)
          refine ⟨stop, f'', hrun, hends.of_cut (by omega) ?_⟩
          rw [hlit, if_neg (by omega), if_neg hn]
        · obtain ⟨k, rfl⟩ : ∃ k, fuel = k + 1 := ⟨fuel - 1, by omega⟩
          have hpast : src.atEnd (pos + 2) = true := by simp; omega
          refine ⟨pos + 2, f', by simp [Source.scanLiteral, hpast], by omega, .inr ⟨by omega, ?_⟩⟩
          rw [hlit, if_pos h1]
      split
      · next hu =>
        split
        · next next hesc' =>
          obtain ⟨h1, h2, h3⟩ := unicodeEscape_cut hq hesc'
          obtain ⟨stop, f', hrun, hends⟩ := ih next { f with empty := false } h2 (by omega)
          refine ⟨stop, f', hrun, hends.of_cut (by omega) ?_⟩
          rw [hlit, if_neg (by omega), if_neg hn, h3]
        · exact hskip _
      split <;> exact hskip _
    · next hesc =>
      obtain ⟨stop, f', hrun, hends⟩ := ih (pos + 1) { f with empty := false } hlt (by omega)
      exact ⟨stop, f', hrun, hends.of_cut (by omega)
        (cut_literal_plain hlt (by simpa using hquote) (by simpa using hnl) (by simpa using hesc))⟩

/-- From an opening quote, the literal moves the cursor as `Moves` allows. -/
theorem scanLiteral_moves {quote : UInt8} (hq : quote = ch '"' ∨ quote = ch '\'') {pos : Nat}
    (h : src.byte pos = quote) :
    ∃ stop f, src.scanLiteral quote (src.size + 1) (pos + 1) Source.scanStart = some (stop, f) ∧
      pos < stop ∧ Moves src pos stop := by
  have hlt : pos < src.size := Source.lt_of_byte_ne (by rw [h]; rcases hq with rfl | rfl <;> decide)
  have hopen : src.cut .code pos = src.cut (.literal quote) (pos + 1) := by
    rw [cut_code hlt, h]
    rcases hq with rfl | rfl <;> rfl
  obtain ⟨stop, f, hrun, hle, hends⟩ :=
    @scanLiteral_spec src quote hq (src.size + 1) (pos + 1) Source.scanStart hlt (by omega)
  refine ⟨stop, f, hrun, by omega, ?_⟩
  rcases hends with ⟨hin, hcut⟩ | ⟨hout, hcut⟩
  · exact .inl ⟨by omega, hin, hopen.trans hcut⟩
  · exact .inr ⟨hout, hopen.trans hcut⟩

theorem lexString_lexes {s : LexState} (h : src.byte s.pos = ch '"') :
    ∃ s', src.lexString s = some s' ∧ Lexes src s s' := by
  obtain ⟨stop, f, hrun, hlt, hm⟩ := scanLiteral_moves (.inl rfl) h
  simp only [Source.lexString, hrun, Option.bind_eq_bind, Option.bind_some, Option.pure_def]
  refine ⟨_, rfl, ?_⟩
  split
  · exact lexes_error _ _ hlt hm
  split
  · exact lexes_error _ _ hlt hm
  · exact lexes_push _ hlt hm

theorem lexChar_lexes {s : LexState} (h : src.byte s.pos = ch '\'') :
    ∃ s', src.lexChar s = some s' ∧ Lexes src s s' := by
  obtain ⟨stop, f, hrun, hlt, hm⟩ := scanLiteral_moves (.inr rfl) h
  simp only [Source.lexChar, hrun, Option.bind_eq_bind, Option.bind_some, Option.pure_def]
  refine ⟨_, rfl, ?_⟩
  split
  · exact lexes_error _ _ hlt hm
  split
  · exact lexes_error _ _ hlt hm
  split
  · exact lexes_error _ _ hlt hm
  · exact lexes_push _ hlt hm

/-! ## Whitespace and comments -/

/-- A step that appends nothing, over whitespace or one comment. -/
structure Skips (src : Source) (s s' : LexState) : Prop where
  out : s'.out = s.out
  lt : s.pos < s'.pos
  sync : Sync src s.pos s'.pos
  gap : (∀ i, s.pos ≤ i → i < s'.pos → isSpace (src.byte i) = true) ∨
    Comment (src.slice s.pos s'.pos)

/-- One step of the lexer. -/
inductive Step (src : Source) (s s' : LexState) : Prop where
  | lexes : Lexes src s s' → Step src s s'
  | skips : Skips src s s' → Step src s s'

theorem Step.lt {s s' : LexState} (h : Step src s s') : s.pos < s'.pos := by
  cases h with
  | lexes h => exact h.lt
  | skips h => exact h.lt

theorem headD_slice {start stop : Nat} (h : stop ≤ src.size) {c : UInt8} (hc : c ≠ 0)
    (hs : (src.slice start stop).headD 0 = c) : src.byte start = c := by
  rcases Nat.lt_or_ge start stop with hlt | hge
  · rwa [Source.slice_cons hlt h] at hs
  · rw [Source.slice, Nat.sub_eq_zero_of_le hge] at hs
    exact absurd hs.symm hc

theorem blockComment_zero {fuel pos : Nat} : src.blockComment (fuel + 1) pos 0 = some (pos, 0) := by
  simp [Source.blockComment]

/-- The loop over an open comment ends at its matching close, or at the end of the
input with some comment still open. -/
theorem blockComment_spec : ∀ (fuel pos depth : Nat), pos ≤ src.size → src.size - pos < fuel →
    ∃ stop left, src.blockComment fuel pos (depth + 1) = some (stop, left) ∧
      pos ≤ stop ∧ stop ≤ src.size ∧
      (left = 0 ∧ Nested (depth + 1) (src.slice pos stop) ∧
        src.cut (.block (depth + 1)) pos = src.cut .code stop ∨
      0 < left ∧ stop = src.size ∧ src.cut (.block (depth + 1)) pos = false) := by
  intro fuel
  induction fuel with
  | zero => intro pos depth _ h; omega
  | succ fuel ih =>
    intro pos depth hle hfuel
    unfold Source.blockComment
    rcases Nat.lt_or_ge pos src.size with hlt | hge
    swap
    · rw [if_pos (by simp [hge])]
      exact ⟨pos, depth + 1, rfl, Nat.le_refl _, hle,
        .inr ⟨by omega, by omega, cut_of_le hge⟩⟩
    rw [if_neg (by simp; omega)]
    have hcut := @cut_block src (depth + 1) pos hlt
    split
    · next hopen =>
      rw [if_pos hopen] at hcut
      simp only [Bool.and_eq_true, beq_iff_eq] at hopen
      have h2 : pos + 1 < src.size := Source.lt_of_byte_ne (by rw [hopen.2]; decide)
      obtain ⟨stop, left, hrun, h3, h4, hres⟩ := ih (pos + 2) (depth + 1) (by omega) (by omega)
      refine ⟨stop, left, hrun, by omega, h4, ?_⟩
      rw [hcut]
      refine hres.imp (fun h => ⟨h.1, ?_, h.2.2⟩) id
      rw [Source.slice_cons (by omega) h4, Source.slice_cons (by omega) h4, hopen.1, hopen.2]
      exact .opens h.2.1
    next hopen =>
    rw [if_neg hopen] at hcut
    split
    · next hclose =>
      rw [if_pos hclose] at hcut
      simp only [Bool.and_eq_true, beq_iff_eq] at hclose
      have h2 : pos + 1 < src.size := Source.lt_of_byte_ne (by rw [hclose.2]; decide)
      have hpair : ∀ stop, pos + 2 ≤ stop → stop ≤ src.size →
          src.slice pos stop = ch '*' :: ch '/' :: src.slice (pos + 2) stop := by
        intro stop h3 h4
        rw [Source.slice_cons (by omega) h4, Source.slice_cons (by omega) h4, hclose.1, hclose.2]
      cases depth with
      | zero =>
        obtain ⟨k, rfl⟩ : ∃ k, fuel = k + 1 := ⟨fuel - 1, by omega⟩
        refine ⟨pos + 2, 0, blockComment_zero, by omega, by omega, .inl ⟨rfl, ?_, hcut⟩⟩
        rw [hpair _ (Nat.le_refl _) (by omega), Source.slice_self]
        exact .closes .done
      | succ depth =>
        obtain ⟨stop, left, hrun, h3, h4, hres⟩ := ih (pos + 2) depth (by omega) (by omega)
        refine ⟨stop, left, hrun, by omega, h4, ?_⟩
        rw [hcut]
        refine hres.imp (fun h => ⟨h.1, ?_, h.2.2⟩) id
        rw [hpair stop h3 h4]
        exact .closes h.2.1
    · next hclose =>
      rw [if_neg hclose] at hcut
      obtain ⟨stop, left, hrun, h3, h4, hres⟩ := ih (pos + 1) depth hlt (by omega)
      refine ⟨stop, left, hrun, by omega, h4, ?_⟩
      rw [hcut]
      refine hres.imp (fun h => ⟨h.1, ?_, h.2.2⟩) id
      rw [Source.slice_cons (by omega) h4]
      refine .byte (fun hb => hopen ?_) (fun hb => hclose ?_) h.2.1
      · simp [hb.1, headD_slice h4 (by decide) hb.2]
      · simp [hb.1, headD_slice h4 (by decide) hb.2]

theorem skipAhead_total : ∀ (fuel pos : Nat), pos ≤ src.size → src.size - pos < fuel →
    ∃ i, src.skipAhead fuel pos = some i := by
  intro fuel
  induction fuel with
  | zero => intro pos _ h; omega
  | succ fuel ih =>
    intro pos hle hfuel
    obtain ⟨i, hi⟩ : ∃ i, i = src.skipWhile (fun c => isBlank c || c == ch '\n') pos := ⟨_, rfl⟩
    have h1 : pos ≤ i := hi ▸ src.le_skipWhile _ pos
    have hnext : src.byte (i + 1) ≠ 0 → i + 2 ≤ src.size := Source.lt_of_byte_ne
    unfold Source.skipAhead
    simp only [← hi]
    split
    · next h =>
      simp only [Bool.and_eq_true, beq_iff_eq] at h
      have h2 := hnext (by rw [h.2]; decide)
      have h3 := src.le_skipWhile (· != ch '\n') (i + 2)
      exact ih _ (Source.skipWhile_le h2) (by omega)
    split
    · next h =>
      simp only [Bool.and_eq_true, beq_iff_eq] at h
      have h2 := hnext (by rw [h.2]; decide)
      obtain ⟨stop, left, hrun, h3, h4, _⟩ :=
        @blockComment_spec src (src.size + 1) (i + 2) 0 h2 (by omega)
      simp only [hrun, Option.bind_eq_bind, Option.bind_some]
      exact ih stop h4 (by omega)
    · exact ⟨i, rfl⟩

theorem peekNextKind_total {pos : Nat} (h : pos ≤ src.size) :
    ∃ kind, src.peekNextKind pos = some kind := by
  obtain ⟨i, hi⟩ := @skipAhead_total src (src.size + 1) pos h (by omega)
  unfold Source.peekNextKind
  simp only [hi, Option.bind_eq_bind, Option.bind_some, Option.pure_def]
  split
  · exact ⟨_, rfl⟩
  split
  · split <;> exact ⟨_, rfl⟩
  · exact ⟨_, rfl⟩

theorem skips_space {s s' : LexState} (h : isSpace (src.byte s.pos) = true)
    (hout : s'.out = s.out) (hpos : s'.pos = s.pos + 1) : Skips src s s' := by
  refine ⟨hout, by omega, hpos ▸ Sync.plain (plain_of_space h), .inl fun i h1 h2 => ?_⟩
  rwa [show i = s.pos by omega]

theorem newline_step {s : LexState} (h : src.byte s.pos = ch '\n') :
    ∃ s', src.newline s = some s' ∧ Step src s s' := by
  have hs : isSpace (src.byte s.pos) = true := by rw [h]; decide
  have hsync : Sync src s.pos (s.pos + 1) := .plain (plain_of_space hs)
  have hskip : Step src s (s.advance 1) := .skips (skips_space hs rfl rfl)
  have hsemi : Step src s (src.pushSignificant .semicolon s.pos 1 (s.advance 1)) :=
    .lexes (by
      have := @lexes_push src s (s.pos + 1) .semicolon (by omega) (.inl hsync)
      rwa [Nat.add_sub_cancel_left] at this)
  obtain ⟨next, hnext⟩ := @peekNextKind_total src (s.advance 1).pos hsync.inside
  unfold Source.newline
  dsimp only
  split
  · simp only [hnext, Option.bind_eq_bind, Option.bind_some]
    split
    · exact ⟨_, rfl, hskip⟩
    · exact ⟨_, rfl, hsemi⟩
  · exact ⟨_, rfl, hskip⟩

/-- A line comment is left at its newline or at the end of the input. -/
theorem cut_line_skip (pos : Nat) :
    src.cut .line pos = src.cut .code (src.skipWhile (· != ch '\n') pos) := by
  have hline : src.cut .line pos = src.cut .line (src.skipWhile (· != ch '\n') pos) :=
    Source.skipWhile_induct (P := fun i => src.cut .line pos = src.cut .line i) rfl
      fun i hi hp hcut => by
        rw [hcut, cut_line hi, if_neg (by simpa using hp)]
  rw [hline]
  rcases Nat.lt_or_ge (src.skipWhile (· != ch '\n') pos) src.size with hlt | hge
  · have hnl := Source.skipWhile_stop (· != ch '\n') pos hlt
    have hb : src.byte (src.skipWhile (· != ch '\n') pos) = ch '\n' := by simpa using hnl
    rw [(Sync.plain (plain_of_eq hb (by decide))).cut, cut_line hlt, hb]
    rfl
  · rw [cut_of_le hge, cut_of_le hge]

theorem lineComment_step {s : LexState} (h1 : src.byte s.pos = ch '/')
    (h2 : src.byte (s.pos + 1) = ch '/') : Step src s (src.lineComment s) := by
  have hlt1 := Source.lt_of_byte_ne (show src.byte s.pos ≠ 0 by rw [h1]; decide)
  have hlt2 := Source.lt_of_byte_ne (show src.byte (s.pos + 1) ≠ 0 by rw [h2]; decide)
  have hskip : ∀ k, (∀ j, j < k → src.byte (s.pos + j) ≠ ch '\n' ∧ src.byte (s.pos + j) ≠ 0) →
      src.skipWhile (· != ch '\n') (s.pos + k) = src.skipWhile (· != ch '\n') s.pos := by
    intro k
    induction k with
    | zero => intro _; rfl
    | succ k ih =>
      intro hk
      have hb := hk k (Nat.lt_succ_self k)
      rw [← ih fun j hj => hk j (by omega)]
      exact (Source.skipWhile_of_pos (Source.lt_of_byte_ne hb.2) (by simpa using hb.1)).symm
  have hline : ∀ j, j < 2 → src.byte (s.pos + j) ≠ ch '\n' ∧ src.byte (s.pos + j) ≠ 0 := by
    intro j hj
    obtain rfl | rfl : j = 0 ∨ j = 1 := by omega
    · rw [Nat.add_zero, h1]; decide
    · rw [h2]; decide
  obtain ⟨stop, hstop⟩ : ∃ stop, stop = src.skipWhile (· != ch '\n') s.pos := ⟨_, rfl⟩
  have h3 : s.pos + 2 ≤ stop := hstop ▸ hskip 2 hline ▸ src.le_skipWhile _ (s.pos + 2)
  have hsize : stop ≤ src.size := hstop ▸ Source.skipWhile_le (by omega)
  have hsync : Sync src s.pos stop := by
    refine ⟨by omega, hsize, ?_⟩
    rw [cut_code hlt1, h1, h2, hstop, ← hskip 1 fun j hj => hline j (by omega)]
    exact cut_line_skip _
  unfold Source.lineComment
  split
  · next hdoc =>
    simp only [Bool.and_eq_true, beq_iff_eq] at hdoc
    have h4 := hskip 3 fun j hj => by
      rcases Nat.lt_or_ge j 2 with hj2 | hj2
      · exact hline j hj2
      · rw [show j = 2 by omega, hdoc.1]; decide
    simp only [h4, ← hstop]
    exact .lexes (lexes_push _ (by omega) (.inl hsync))
  · rw [← hstop]
    refine .skips ⟨rfl, by dsimp only; omega, hsync, .inr ?_⟩
    rw [Source.slice_cons (by omega) hsize, Source.slice_cons (by omega) hsize, h1, h2]
    refine .line fun c hc => ?_
    obtain ⟨i, hi1, hi2, rfl⟩ := Source.mem_slice hsize hc
    have := @Source.skipWhile_all src (· != ch '\n') s.pos i (by omega) (hstop ▸ hi2)
    simpa using this

theorem openComment_step {s : LexState} (h1 : src.byte s.pos = ch '/')
    (h2 : src.byte (s.pos + 1) = ch '*') :
    ∃ s', src.openComment s = some s' ∧ Step src s s' := by
  have hlt1 := Source.lt_of_byte_ne (show src.byte s.pos ≠ 0 by rw [h1]; decide)
  have hlt2 := Source.lt_of_byte_ne (show src.byte (s.pos + 1) ≠ 0 by rw [h2]; decide)
  have hopen : src.cut .code s.pos = src.cut (.block 1) (s.pos + 2) := by
    rw [cut_code hlt1, h1, h2]
    rfl
  obtain ⟨stop, left, hrun, h3, h4, hres⟩ :=
    @blockComment_spec src (src.size + 1) (s.pos + 2) 0 hlt2 (by omega)
  simp only [Source.openComment, hrun, Option.bind_eq_bind, Option.bind_some, Option.pure_def]
  rcases hres with ⟨rfl, hn, hcut⟩ | ⟨hpos, rfl, hcut⟩
  · refine ⟨_, rfl, .skips ⟨rfl, by simp only; omega, ⟨by simp only; omega, h4, ?_⟩, .inr ?_⟩⟩
    · exact hopen.trans hcut
    · simp only
      rw [Source.slice_cons (by omega) h4, Source.slice_cons (by omega) h4, h1, h2]
      exact .block hn
  · rw [if_pos hpos]
    refine ⟨_, rfl, .lexes (lexes_error _ _ (by omega) (.inl ⟨by omega, h4, ?_⟩))⟩
    rw [hopen, hcut, cut_of_le (Nat.le_refl _)]

/-! ## The loops -/

/-- What the steps keep, the trivia loop keeps; it ends where a token starts, or
at the end of the input. -/
theorem skipTrivia_spec {P : LexState → Prop}
    (hP : ∀ s s', s.pos < src.size → P s → Step src s s' → P s' ∧ s'.pos ≤ src.size + 1) :
    ∀ (fuel : Nat) (s : LexState), P s → s.pos ≤ src.size + 1 → src.size + 1 - s.pos < fuel →
      ∃ s', src.skipTrivia fuel s = some s' ∧ P s' ∧ s.pos ≤ s'.pos ∧ s'.pos ≤ src.size + 1 ∧
        (s'.pos < src.size → NoComment src s'.pos ∧ isSpace (src.byte s'.pos) = false) := by
  intro fuel
  induction fuel with
  | zero => intro s _ _ h; omega
  | succ fuel ih =>
    intro s hp hle hfuel
    have hnext : ∀ s', s.pos < src.size → Step src s s' → ∃ s'', src.skipTrivia fuel s' = some s'' ∧
        P s'' ∧ s.pos ≤ s''.pos ∧ s''.pos ≤ src.size + 1 ∧
        (s''.pos < src.size → NoComment src s''.pos ∧ isSpace (src.byte s''.pos) = false) := by
      intro s' hlt hs
      obtain ⟨hp', hle'⟩ := hP s s' hlt hp hs
      have hmove := hs.lt
      obtain ⟨s'', hrun, hp'', h1, h2⟩ := ih s' hp' hle' (by omega)
      exact ⟨s'', hrun, hp'', by omega, h2⟩
    unfold Source.skipTrivia
    split
    · next hend =>
      have hge := Source.atEnd_eq_true.mp hend
      exact ⟨s, rfl, hp, Nat.le_refl _, hle, fun hlt => by omega⟩
    next hend =>
    have hlt : s.pos < src.size := by simpa using hend
    dsimp only
    split
    · next hb => exact hnext _ hlt (.skips (skips_space (by simp [isSpace, hb]) rfl rfl))
    next hb =>
    split
    · next hnl =>
      obtain ⟨s', hrun, hs⟩ := @newline_step src s (beq_iff_eq.mp hnl)
      rw [hrun, Option.bind_some]
      exact hnext s' hlt hs
    next hnl =>
    split
    · next hc =>
      simp only [Bool.and_eq_true, beq_iff_eq] at hc
      exact hnext _ hlt (lineComment_step hc.1 hc.2)
    next hline =>
    split
    · next hc =>
      simp only [Bool.and_eq_true, beq_iff_eq] at hc
      obtain ⟨s', hrun, hs⟩ := openComment_step hc.1 hc.2
      rw [hrun, Option.bind_some]
      exact hnext s' hlt hs
    · next hblock =>
      refine ⟨s, rfl, hp, Nat.le_refl _, hle, fun _ => ⟨?_, ?_⟩⟩
      · rintro ⟨h1, h2 | h2⟩
        · exact hline (by simp [h1, h2])
        · exact hblock (by simp [h1, h2])
      · simp only [isSpace, Bool.or_eq_false_iff]
        exact ⟨by simpa using hb, by simpa using hnl⟩

theorem lexToken_lexes {s : LexState} (hlt : s.pos < src.size) (hno : NoComment src s.pos) :
    ∃ s', src.lexToken s = some s' ∧ Lexes src s s' := by
  unfold Source.lexToken
  dsimp only
  split
  · next h0 =>
    have hb : src.byte s.pos = 0 := beq_iff_eq.mp h0
    have hcut := cut_code_symbol hlt hno (by rw [hb]; decide) (by rw [hb]; decide)
    rw [hb] at hcut
    have herr := @lexes_error src s (s.pos + 1) kLexerInvalidChar "invalid character"
      (by omega) (.inl ⟨by omega, hlt, hcut⟩)
    rw [Nat.add_sub_cancel_left] at herr
    exact ⟨_, rfl, herr⟩
  split
  · next ha =>
    refine ⟨_, rfl, lexIdentifier_lexes ?_⟩
    simp only [Bool.or_eq_true] at ha
    rcases ha with ha | ha <;> simp [isAlnumOrUnderscore, ha]
  split
  · next hd => exact ⟨_, rfl, lexNumber_lexes hd⟩
  split
  · next hq => exact lexString_lexes (beq_iff_eq.mp hq)
  split
  · next hq => exact lexChar_lexes (beq_iff_eq.mp hq)
  · next hq1 hq2 =>
    exact ⟨_, rfl, lexSymbol_lexes hlt hno (by simpa using hq1) (by simpa using hq2)⟩

/-- **Run rule.** What every step keeps holds when the lexer stops, and it does. -/
theorem lexTokens_spec {P : LexState → Prop}
    (hP : ∀ s s', s.pos < src.size → P s → Step src s s' → P s' ∧ s'.pos ≤ src.size + 1) :
    ∀ (fuel : Nat) (s : LexState), P s → s.pos ≤ src.size + 1 → src.size + 1 - s.pos < fuel →
      ∃ s', src.lexTokens fuel s = some s' ∧ P s' ∧ src.size ≤ s'.pos := by
  intro fuel
  induction fuel with
  | zero => intro s _ _ h; omega
  | succ fuel ih =>
    intro s hp hle hfuel
    obtain ⟨u, hu, hpu, h1, h2, hstart⟩ := skipTrivia_spec hP (src.size + 2) s hp hle (by omega)
    simp only [Source.lexTokens, hu, Option.bind_eq_bind, Option.bind_some]
    split
    · next hend => exact ⟨u, rfl, hpu, Source.atEnd_eq_true.mp hend⟩
    · next hend =>
      have hlt : u.pos < src.size := by simpa using hend
      obtain ⟨v, hv, hlex⟩ := lexToken_lexes hlt (hstart hlt).1
      obtain ⟨hpv, hle'⟩ := hP u v hlt hpu (.lexes hlex)
      have := hlex.lt
      rw [hv, Option.bind_some]
      exact ih v hpv hle' (by omega)

end Alcy.Lexer
