import Alcy.Lexer.NextCode

/-! # Doc comments

A text, and the same text with every doc comment made an ordinary comment. The lexer comes by the
same positions in both. A doc comment is remembered as the last token, though, so the newline behind
it ends no statement, where the newline behind the ordinary comment does.
-/
namespace Alcy.Lexer
open Source (isBlank symbolKind)

/-! ## The other text -/

/-- A third slash. -/
def DocSlash (src : Source) (i : Nat) : Prop :=
  ∃ s, Course src .start s ∧ OpensDoc src s.pos ∧ i = s.pos + 2

/-- Two texts that differ in the third slashes of doc comments only, which are spaces in the
second. -/
structure Undocumented (src src' : Source) : Prop where
  size : src'.size = src.size
  file : src'.file = src.file
  space : ∀ i, DocSlash src i → src'.byte i = ch ' '
  other : ∀ i, ¬ DocSlash src i → src'.byte i = src.byte i

variable {src src' : Source} {s s' u u' : LexState}

theorem DocSlash.byte {i : Nat} (h : DocSlash src i) : src.byte i = ch '/' := by
  obtain ⟨s, _, ⟨_, _, h3⟩, rfl⟩ := h
  rw [Bool.and_eq_true, beq_iff_eq] at h3
  exact h3.1

/-- A test that takes a slash for a space finds the same in both texts. -/
theorem Undocumented.test (h : Undocumented src src') {α : Type} (p : UInt8 → α)
    (hp : p (ch '/') = p (ch ' ')) (i : Nat) : p (src'.byte i) = p (src.byte i) := by
  by_cases hslash : DocSlash src i
  · rw [h.space i hslash, hslash.byte, hp]
  · rw [h.other i hslash]

theorem Undocumented.atEnd (h : Undocumented src src') (pos : Nat) :
    src'.atEnd pos = src.atEnd pos := by
  rw [Source.atEnd, Source.atEnd, h.size]

theorem Undocumented.spanAt (h : Undocumented src src') (start length : Nat) :
    src'.spanAt start length = src.spanAt start length := by
  rw [Source.spanAt, Source.spanAt, h.file]

theorem Undocumented.skipWhile (h : Undocumented src src') {p : UInt8 → Bool}
    (hp : p (ch '/') = p (ch ' ')) (pos : Nat) : src'.skipWhile p pos = src.skipWhile p pos := by
  suffices hk : ∀ k pos, src.size - pos = k → src'.skipWhile p pos = src.skipWhile p pos from
    hk _ pos rfl
  intro k
  induction k with
  | zero =>
    intro pos hk
    have hsize := h.size
    rw [Source.skipWhile_of_not fun hlt => by omega, Source.skipWhile_of_not fun hlt => by omega]
  | succ k ih =>
    intro pos hk
    have hsize := h.size
    have hbyte := h.test p hp pos
    cases hc : p (src.byte pos) with
    | false =>
      rw [Source.skipWhile_of_not fun _ => hbyte.trans hc, Source.skipWhile_of_not fun _ => hc]
    | true =>
      rw [Source.skipWhile_of_pos (by omega) (hbyte.trans hc),
        Source.skipWhile_of_pos (by omega) hc, ih (pos + 1) (by omega)]

/-- A scan over bytes that are no slashes comes by the same bytes. -/
theorem Undocumented.slice (h : Undocumented src src') {start stop : Nat} (hle : stop ≤ src.size)
    (hno : ∀ i, start ≤ i → i < stop → src.byte i ≠ ch '/') :
    src'.slice start stop = src.slice start stop := by
  have hle' : stop ≤ src'.size := h.size ▸ hle
  suffices hk : ∀ k start, stop - start = k →
      (∀ i, start ≤ i → i < stop → src.byte i ≠ ch '/') →
      src'.slice start stop = src.slice start stop from hk _ start rfl hno
  intro k
  induction k with
  | zero =>
    intro start hk _
    simp [Source.slice, hk]
  | succ k ih =>
    intro start hk hno
    have hbyte : src'.byte start = src.byte start :=
      h.other start fun hslash => hno start (Nat.le_refl _) (by omega) hslash.byte
    rw [Source.slice_cons (by omega) hle', Source.slice_cons (by omega) hle, hbyte,
      ih (start + 1) (by omega) fun i h1 h2 => hno i (by omega) h2]

/-! ## Tokens are made alike -/

theorem Undocumented.pushSignificant (h : Undocumented src src') (kind : TokenKind)
    (start length : Nat) (s : LexState) :
    src'.pushSignificant kind start length s = src.pushSignificant kind start length s := by
  simp only [Source.pushSignificant, Source.push, h.spanAt]

theorem Undocumented.emitError (h : Undocumented src src') (start length code : Nat)
    (message : String) (s : LexState) :
    src'.emitError start length code message s = src.emitError start length code message s := by
  simp only [Source.emitError, Source.push, h.spanAt]

theorem Undocumented.invalidNumber (h : Undocumented src src') (start stop : Nat) (s : LexState) :
    src'.invalidNumber start stop s = src.invalidNumber start stop s := by
  simp only [Source.invalidNumber, h.emitError]

theorem alnum_ne_slash {c : UInt8} (h : isAlnumOrUnderscore c = true) : c ≠ ch '/' := by
  rintro rfl
  exact absurd h (by decide)

theorem Undocumented.lexIdentifier (h : Undocumented src src') (hin : s.pos ≤ src.size) :
    src'.lexIdentifier s = src.lexIdentifier s := by
  have hstop := h.skipWhile (p := isAlnumOrUnderscore) rfl s.pos
  have hword : src'.slice s.pos (src.skipWhile isAlnumOrUnderscore s.pos) =
      src.slice s.pos (src.skipWhile isAlnumOrUnderscore s.pos) :=
    h.slice (Source.skipWhile_le hin) fun i h1 h2 => alnum_ne_slash (Source.skipWhile_all i h1 h2)
  simp only [Source.lexIdentifier, hstop, hword, h.pushSignificant]

theorem Undocumented.lexSuffix (h : Undocumented src src') (start pos : Nat) (isFloat : Bool)
    (s : LexState) : src'.lexSuffix start pos isFloat s = src.lexSuffix start pos isFloat s := by
  simp only [Source.lexSuffix, h.atEnd, h.test isAlpha rfl, h.test (· == ch '_') rfl,
    h.skipWhile (p := isAlnumOrUnderscore) rfl, h.pushSignificant]

theorem inBase_slash (base : UInt8) : Source.inBase base (ch '/') = false := by
  rw [Source.inBase, if_neg (by decide)]
  split
  · decide
  · split <;> decide

theorem inBase_space (base : UInt8) : Source.inBase base (ch ' ') = false := by
  rw [Source.inBase, if_neg (by decide)]
  split
  · decide
  · split <;> decide

theorem Undocumented.lexPrefixed (h : Undocumented src src')
    (hbase : src'.byte (s.pos + 1) = src.byte (s.pos + 1)) (hin : s.pos + 2 ≤ src.size) :
    src'.lexPrefixed s = src.lexPrefixed s := by
  have hstop := h.skipWhile ((inBase_slash (src.byte (s.pos + 1))).trans (inBase_space _).symm)
    (s.pos + 2)
  have hdigits : src'.slice (s.pos + 2) (src.skipWhile (Source.inBase (src.byte (s.pos + 1)))
      (s.pos + 2)) = src.slice (s.pos + 2) (src.skipWhile (Source.inBase (src.byte (s.pos + 1)))
      (s.pos + 2)) := by
    refine h.slice (Source.skipWhile_le hin) fun i h1 h2 hslash => ?_
    have hi := Source.skipWhile_all i h1 h2
    rw [hslash, inBase_slash] at hi
    cases hi
  simp only [Source.lexPrefixed, hbase, hstop, hdigits, h.test isAlpha rfl, h.test isDigit rfl,
    h.skipWhile (p := isAlnumOrUnderscore) rfl, h.invalidNumber, h.lexSuffix]

theorem Undocumented.lexDecimal (h : Undocumented src src') :
    src'.lexDecimal s = src.lexDecimal s := by
  simp only [Source.lexDecimal, h.skipWhile (p := Source.isDigitOrUnderscore) rfl,
    h.test (· == ch '.') rfl, h.test (· != ch '.') rfl, h.test (· == ch 'e') rfl,
    h.test (· == ch 'E') rfl, h.test (· == ch '+') rfl, h.test (· == ch '-') rfl,
    h.test (· == ch '_') rfl, h.test isDigit rfl, h.test isAlpha rfl, h.invalidNumber, h.lexSuffix]

theorem Undocumented.lexNumber (h : Undocumented src src')
    (hbyte : src'.byte s.pos = src.byte s.pos) : src'.lexNumber s = src.lexNumber s := by
  simp only [Source.lexNumber, hbyte, h.test (· == ch 'b') rfl, h.test (· == ch 'B') rfl,
    h.test (· == ch 'o') rfl, h.test (· == ch 'O') rfl, h.test (· == ch 'x') rfl,
    h.test (· == ch 'X') rfl, h.lexDecimal]
  split
  · next hp =>
    rw [Bool.and_eq_true] at hp
    refine h.lexPrefixed (h.other _ fun hslash => ?_) (Source.lt_of_byte_ne fun h0 => ?_)
    · rw [hslash.byte] at hp
      exact absurd hp.2 (by decide)
    · rw [h0] at hp
      exact absurd hp.2 (by decide)
  · rfl

theorem Undocumented.unicodeEscape (h : Undocumented src src') (pos : Nat) :
    src'.unicodeEscape pos = src.unicodeEscape pos := by
  simp only [Source.unicodeEscape, h.test (· == ch '\x7b') rfl, h.test (· == ch '\x7d') rfl,
    h.skipWhile (p := isHexDigit) rfl]

theorem Undocumented.scanLiteral (h : Undocumented src src') {quote : UInt8}
    (hquote : (ch '/' == quote) = (ch ' ' == quote)) (fuel pos : Nat) (f : Source.Scan) :
    src'.scanLiteral quote fuel pos f = src.scanLiteral quote fuel pos f := by
  induction fuel generalizing pos f with
  | zero => rfl
  | succ fuel ih =>
    simp only [Source.scanLiteral, h.atEnd, h.test (· == quote) hquote, h.test (· == ch '\n') rfl,
      h.test (· == ch '\\') rfl, h.test (· == ch 'u') rfl, h.test isValidEscape rfl,
      h.unicodeEscape, ih]

theorem Undocumented.lexString (h : Undocumented src src') :
    src'.lexString s = src.lexString s := by
  simp only [Source.lexString, h.size, @Undocumented.scanLiteral src src' h (ch '"') rfl,
    h.emitError, h.pushSignificant]

theorem Undocumented.lexChar (h : Undocumented src src') : src'.lexChar s = src.lexChar s := by
  simp only [Source.lexChar, h.size, @Undocumented.scanLiteral src src' h (ch '\'') rfl,
    h.emitError, h.pushSignificant]

/-- No symbol goes on with a slash or a space. -/
theorem Undocumented.symbolKind (h : Undocumented src src') (c : UInt8) (i j : Nat) :
    Source.symbolKind c (src'.byte i) (src'.byte j) =
      Source.symbolKind c (src.byte i) (src.byte j) := by
  simp only [Source.symbolKind, h.test (· == ch '.') rfl, h.test (· == ch '=') rfl,
    h.test (· == ch '<') rfl, h.test (· == ch '>') rfl, h.test (· == ch ':') rfl,
    h.test (· == ch '*') rfl, h.test (· == ch '&') rfl, h.test (· == ch '|') rfl]

theorem Undocumented.lexSymbol (h : Undocumented src src')
    (hbyte : src'.byte s.pos = src.byte s.pos) : src'.lexSymbol s = src.lexSymbol s := by
  simp only [Source.lexSymbol, Source.invalidScalar, hbyte, h.symbolKind, h.size, h.emitError,
    h.pushSignificant]

theorem Undocumented.lexToken (h : Undocumented src src') (hin : s.pos ≤ src.size)
    (hbyte : src'.byte s.pos = src.byte s.pos) : src'.lexToken s = src.lexToken s := by
  simp only [Source.lexToken, hbyte, h.emitError, h.lexIdentifier hin, h.lexNumber hbyte,
    h.lexString, h.lexChar, h.lexSymbol hbyte]

/-! ## The position decides -/

/-- One token for both states. -/
inductive SamePush (src : Source) (s s' : LexState) : LexState → LexState → Prop
  | significant (kind : TokenKind) (start length stop : Nat) (hkind : kind ≠ .docComment) :
      SamePush src s s' (src.pushSignificant kind start length { s with pos := stop })
        (src.pushSignificant kind start length { s' with pos := stop })
  | error (start length code : Nat) (message : String) (stop : Nat) :
      SamePush src s s' (src.emitError start length code message { s with pos := stop })
        (src.emitError start length code message { s' with pos := stop })

theorem SamePush.ite {p : Bool} {a b a' b' : LexState} (ha : SamePush src s s' a a')
    (hb : SamePush src s s' b b') :
    SamePush src s s' (if p then a else b) (if p then a' else b') := by
  cases p with
  | true => exact ha
  | false => exact hb

theorem lexIdentifier_same (hpos : s'.pos = s.pos) :
    SamePush src s s' (src.lexIdentifier s) (src.lexIdentifier s') := by
  unfold Source.lexIdentifier
  rw [hpos]
  refine .significant _ _ _ _ ?_
  have hkeyword : ∀ keyword ∈ kKeywords, keyword.2 ≠ .docComment := by decide
  split
  · decide
  unfold lookupKeyword
  cases hfind : kKeywords.find? fun keyword => bytesOf keyword.1 == _ with
  | none => decide
  | some keyword => exact hkeyword keyword (List.mem_of_find?_eq_some hfind)

theorem lexSuffix_same (start pos : Nat) (isFloat : Bool) :
    SamePush src s s' (src.lexSuffix start pos isFloat s) (src.lexSuffix start pos isFloat s') := by
  refine .significant _ _ _ _ ?_
  cases isFloat with
  | true => decide
  | false => decide

theorem lexNumber_same (hpos : s'.pos = s.pos) :
    SamePush src s s' (src.lexNumber s) (src.lexNumber s') := by
  have herror : ∀ start stop, SamePush src s s' (src.invalidNumber start stop s)
      (src.invalidNumber start stop s') := fun start stop => .error _ _ _ _ _
  unfold Source.lexNumber Source.lexPrefixed Source.lexDecimal
  rw [hpos]
  exact ((herror _ _).ite ((herror _ _).ite ((herror _ _).ite (lexSuffix_same _ _ _)))).ite
    ((herror _ _).ite (lexSuffix_same _ _ _))

theorem lexSymbol_same (hpos : s'.pos = s.pos) :
    SamePush src s s' (src.lexSymbol s) (src.lexSymbol s') := by
  unfold Source.lexSymbol
  rw [hpos]
  cases hrow : symbolKind (src.byte s.pos) (src.byte (s.pos + 1)) (src.byte (s.pos + 2)) with
  | none =>
    obtain ⟨pos, last, out, bag⟩ := s'
    obtain rfl : pos = s.pos := hpos
    exact .error _ _ _ _ _
  | some row =>
    obtain ⟨pos, last, out, bag⟩ := s'
    obtain rfl : pos = s.pos := hpos
    exact .significant _ _ _ _ (symbolKind_code _ _ _ row.1 row.2 hrow)

theorem lexString_same (hpos : s'.pos = s.pos) (hrun : src.lexString s = some u) :
    ∃ u', src.lexString s' = some u' ∧ SamePush src s s' u u' := by
  unfold Source.lexString at hrun ⊢
  rw [hpos]
  obtain ⟨⟨stop, f⟩, hscan, hrun⟩ := Option.bind_eq_some_iff.1 hrun
  rw [← Option.some.inj hrun, hscan]
  exact ⟨_, rfl, .ite (.error _ _ _ _ _) (.ite (.error _ _ _ _ _)
    (.significant _ _ _ _ (by decide)))⟩

theorem lexChar_same (hpos : s'.pos = s.pos) (hrun : src.lexChar s = some u) :
    ∃ u', src.lexChar s' = some u' ∧ SamePush src s s' u u' := by
  unfold Source.lexChar at hrun ⊢
  rw [hpos]
  obtain ⟨⟨stop, f⟩, hscan, hrun⟩ := Option.bind_eq_some_iff.1 hrun
  rw [← Option.some.inj hrun, hscan]
  exact ⟨_, rfl, .ite (.error _ _ _ _ _) (.ite (.error _ _ _ _ _) (.ite (.error _ _ _ _ _)
    (.significant _ _ _ _ (by decide))))⟩

/-- A token depends on the position only. -/
theorem lexToken_same (hpos : s'.pos = s.pos) (hrun : src.lexToken s = some u) :
    ∃ u', src.lexToken s' = some u' ∧ SamePush src s s' u u' := by
  unfold Source.lexToken at hrun ⊢
  rw [hpos]
  dsimp only at hrun ⊢
  split at hrun
  · next hc =>
    rw [if_pos hc, ← Option.some.inj hrun]
    obtain ⟨pos, last, out, bag⟩ := s'
    obtain rfl : pos = s.pos := hpos
    exact ⟨_, rfl, .error s.pos 1 _ _ (s.pos + 1)⟩
  next hc =>
  rw [if_neg hc]
  split at hrun
  · next hw =>
    rw [if_pos hw, ← Option.some.inj hrun]
    exact ⟨_, rfl, lexIdentifier_same hpos⟩
  next hw =>
  rw [if_neg hw]
  split at hrun
  · next hd =>
    rw [if_pos hd, ← Option.some.inj hrun]
    exact ⟨_, rfl, lexNumber_same hpos⟩
  next hd =>
  rw [if_neg hd]
  split at hrun
  · next hq =>
    rw [if_pos hq]
    exact lexString_same hpos hrun
  next hq =>
  rw [if_neg hq]
  split at hrun
  · next hq' =>
    rw [if_pos hq']
    exact lexChar_same hpos hrun
  next hq' =>
  rw [if_neg hq', ← Option.some.inj hrun]
  exact ⟨_, rfl, lexSymbol_same hpos⟩

/-! ## Positions -/

theorem round_lt (hin : src.atEnd s.pos = false) (hrun : src.round s = some u) : s.pos < u.pos := by
  obtain ⟨v, hv, hlt⟩ := round_total hin
  rw [hrun, Option.some.injEq] at hv
  exact hv ▸ hlt

theorem Course.le (h : Course src s u) : s.pos ≤ u.pos := by
  induction h with
  | refl => exact Nat.le_refl _
  | step hin hrun _ ih => exact Nat.le_trans (Nat.le_of_lt (round_lt hin hrun)) ih

/-- Of two states that the lexer comes to, one is on the way to the other. -/
theorem Course.linear (h : Course src s u) (k : Course src s u') :
    Course src u u' ∨ Course src u' u := by
  induction h with
  | refl => exact .inl k
  | @step s v u hin hrun hrest ih =>
    cases k with
    | refl => exact .inr (.step hin hrun hrest)
    | step _ hrun' krest =>
      rw [hrun, Option.some.injEq] at hrun'
      exact ih (hrun' ▸ krest)

theorem slashes_in_line : ∀ c ∈ [ch '/', ch '/', ch '/'], (c != ch '\n') = true := by
  intro c hc
  have hslash : c = ch '/' := by simpa using hc
  rw [hslash]
  decide

/-- A doc comment goes on to its third slash at least. -/
theorem doc_end (hdoc : OpensDoc src s.pos) (hrun : src.round s = some u) :
    s.pos + 2 < u.pos := by
  have hend := round_doc hdoc hrun
  obtain ⟨h1, h2, h3⟩ := hdoc
  rw [Bool.and_eq_true, beq_iff_eq] at h3
  have hin {i : Nat} (hi : src.byte i = ch '/') : i < src.size :=
    Source.lt_of_byte_ne (by rw [hi]; decide)
  have hslashes : src.TextAt s.pos [ch '/', ch '/', ch '/'] :=
    Source.textAt_cons.mpr ⟨hin h1, h1, Source.textAt_cons.mpr ⟨hin h2, h2,
      Source.textAt_cons.mpr ⟨hin h3.1, h3.1, src.textAt_nil _⟩⟩⟩
  have hskip := hslashes.skipWhile slashes_in_line
  have hle := src.le_skipWhile (· != ch '\n') (s.pos + 3)
  rw [hend, hskip]
  exact hle

/-- The third slashes lie inside the doc comments that the lexer comes to. -/
theorem docSlash_iff {i : Nat} (hs : Course src .start s)
    (hrun : src.round s = some u) (h1 : s.pos ≤ i) (h2 : i < u.pos) :
    DocSlash src i ↔ OpensDoc src s.pos ∧ i = s.pos + 2 := by
  constructor
  · intro ⟨v, hv, hdoc, hi⟩
    obtain hvs | hsv := hv.linear hs
    · cases hvs with
      | refl => exact ⟨hdoc, hi⟩
      | step hin' hrun' hrest =>
        have hfar := doc_end hdoc hrun'
        have hle := hrest.le
        omega
    · cases hsv with
      | refl => exact ⟨hdoc, hi⟩
      | step _ hrun' hrest =>
        rw [hrun, Option.some.injEq] at hrun'
        have hle := hrest.le
        rw [← hrun'] at hle
        omega
  · intro ⟨hdoc, hi⟩
    exact ⟨s, hs, hdoc, hi⟩

/-- The lexer stands on no third slash. -/
theorem Undocumented.here (h : Undocumented src src') (hs : Course src .start s) :
    src'.byte s.pos = src.byte s.pos := by
  refine h.other _ fun ⟨v, hv, hdoc, hi⟩ => ?_
  obtain hvs | hsv := hv.linear hs
  · cases hvs with
    | refl => omega
    | step _ hrun hrest =>
      have hfar := doc_end hdoc hrun
      have hle := hrest.le
      omega
  · have hle := hsv.le
    omega

/-- Between two positions of the lexer, the texts differ in a doc comment only. -/
theorem Undocumented.until (h : Undocumented src src') (hs : Course src .start s)
    (hin : src.atEnd s.pos = false) (hrun : src.round s = some u) (hno : ¬ OpensDoc src s.pos)
    {i : Nat} (h1 : s.pos ≤ i) (h2 : i ≤ u.pos) : src'.byte i = src.byte i := by
  obtain rfl | hlt := Nat.eq_or_lt_of_le h2
  · exact h.here (hs.trans (.step hin hrun (.refl u)))
  · exact h.other i fun hslash => hno ((docSlash_iff hs hrun h1 hlt).mp hslash).1

theorem le_blockComment {fuel pos depth stop left : Nat}
    (hrun : src.blockComment fuel pos depth = some (stop, left)) : pos ≤ stop := by
  induction fuel generalizing pos depth with
  | zero => cases hrun
  | succ fuel ih =>
    unfold Source.blockComment at hrun
    split at hrun
    · cases hrun
      exact Nat.le_refl _
    split at hrun
    · have := ih hrun
      omega
    split at hrun
    · have := ih hrun
      omega
    · have := ih hrun
      omega

/-- A block comment is read alike in texts that have the same bytes up to its end. -/
theorem blockComment_congr (hsize : src'.size = src.size) {fuel pos depth stop left : Nat}
    (hrun : src.blockComment fuel pos depth = some (stop, left))
    (hbytes : ∀ i, pos ≤ i → i ≤ stop → src'.byte i = src.byte i) :
    src'.blockComment fuel pos depth = some (stop, left) := by
  induction fuel generalizing pos depth with
  | zero => cases hrun
  | succ fuel ih =>
    have hend : src'.atEnd pos = src.atEnd pos := by rw [Source.atEnd, Source.atEnd, hsize]
    have hle := le_blockComment hrun
    unfold Source.blockComment at hrun ⊢
    rw [hend]
    split at hrun
    · next hdone => rw [if_pos hdone, hrun]
    next hdone =>
    rw [if_neg hdone]
    have hnext : pos + 1 ≤ stop := by
      split at hrun
      · have := le_blockComment hrun
        omega
      split at hrun
      · have := le_blockComment hrun
        omega
      · exact le_blockComment hrun
    rw [hbytes pos (Nat.le_refl _) hle, hbytes (pos + 1) (Nat.le_succ _) hnext]
    split at hrun
    · next hopen =>
      rw [if_pos hopen]
      exact ih hrun fun i h1 h2 => hbytes i (by omega) h2
    next hopen =>
    rw [if_neg hopen]
    split at hrun
    · next hclose =>
      rw [if_pos hclose]
      exact ih hrun fun i h1 h2 => hbytes i (by omega) h2
    · next hclose =>
      rw [if_neg hclose]
      exact ih hrun fun i h1 h2 => hbytes i (by omega) h2

/-! ## The look ahead -/

theorem Undocumented.lookKind (h : Undocumented src src') {i : Nat}
    (hbyte : src'.byte i = src.byte i) : lookKind src' i = lookKind src i := by
  unfold Lexer.lookKind
  rw [h.atEnd, hbyte, h.skipWhile (p := isAlnumOrUnderscore) rfl]
  split
  · rfl
  next hend =>
  split
  · next hword =>
    have hlt : i < src.size := by simpa using hend
    rw [h.slice (Source.skipWhile_le hlt) fun j h1 h2 => ?_]
    obtain rfl | hlt' := Nat.eq_or_lt_of_le h1
    · refine alnum_ne_slash ?_
      rw [Bool.or_eq_true] at hword
      obtain hw | hw := hword <;> simp [isAlnumOrUnderscore, hw]
    · exact alnum_ne_slash (Source.skipWhile_all j hlt' h2)
  · rfl

/-- At the end there is nothing to find. -/
theorem skipAhead_end {pos : Nat} (hle : src.size ≤ pos) (fuel : Nat) :
    (src.skipAhead (fuel + 1) pos).map (lookKind src) = some .eof := by
  obtain ⟨hspace, hno⟩ := atToken_end hle
  rw [skipAhead_here hspace hno, Option.map_some, lookKind, if_pos (Source.atEnd_eq_true.2 hle)]

theorem round_unfinished (hopen : Unfinished src s.pos) (hrun : src.round s = some u) :
    ∃ left, src.blockComment (src.size + 1) (s.pos + 2) 1 = some (u.pos, left) := by
  obtain ⟨h1, h2, stop, left, hblock, hleft⟩ := hopen
  have hround : src.round s = src.openComment s := by
    simp only [Source.round, h1, h2]
    rfl
  rw [hround, Source.openComment, hblock] at hrun
  simp only [Option.bind_eq_bind, Option.bind_some, hleft, if_true, Option.pure_def,
    Option.some.injEq] at hrun
  exact ⟨left, by rw [hblock, ← hrun]; rfl⟩

/-- At every position of the lexer, the look ahead finds the same in both texts. -/
theorem Undocumented.look (h : Undocumented src src') {n : Nat} :
    ∀ {s : LexState} {fuel : Nat}, src.size - s.pos ≤ n → Course src .start s →
      (src'.skipAhead fuel s.pos).map (Lexer.lookKind src') =
        (src.skipAhead fuel s.pos).map (Lexer.lookKind src) := by
  induction n with
  | zero =>
    intro s fuel hn _
    cases fuel with
    | zero => rfl
    | succ fuel =>
      have hsize := h.size
      rw [skipAhead_end (by omega), skipAhead_end (by omega)]
  | succ n ih =>
    intro s fuel hn hs
    cases fuel with
    | zero => rfl
    | succ fuel =>
    cases hin : src.atEnd s.pos with
    | true =>
      have hsize := h.size
      rw [Source.atEnd_eq_true] at hin
      rw [skipAhead_end (by omega), skipAhead_end (by omega)]
    | false =>
    obtain ⟨u, hrun, hlt⟩ := round_total hin
    have hu : Course src .start u := hs.trans (.step hin hrun (.refl u))
    have hhere := h.here hs
    have hrest := fun fuel => @ih u fuel (by omega) hu
    cases round_cases hin hrun with
    | space hspace hpos _ =>
      rw [skipAhead_space hspace, skipAhead_space (hhere ▸ hspace), ← hpos]
      exact hrest (fuel + 1)
    | comment hspace hcomment _ =>
      have huntil {i : Nat} := h.until hs hin hrun
        (fun hdoc => hcomment.not_atToken ⟨hspace, .inr (.inl hdoc)⟩) (i := i)
      have hnext := huntil (Nat.le_succ s.pos) hlt
      generalize hstop : u.pos = stop at hcomment
      cases hcomment with
      | line h1 h2 _ =>
        rw [skipAhead_line h1 h2, skipAhead_line (hhere ▸ h1) (hnext ▸ h2),
          h.skipWhile (p := (· != ch '\n')) rfl, ← hstop]
        exact hrest fuel
      | block h1 h2 hblock =>
        have hblock' := blockComment_congr h.size hblock fun i hi hle =>
          huntil (by omega) (by omega)
        rw [← h.size] at hblock'
        rw [skipAhead_block h1 h2 hblock,
          skipAhead_block (hhere ▸ h1) (hnext ▸ h2) hblock', ← hstop]
        exact hrest fuel
    | token kind span hat _ _ _ _ =>
      obtain ⟨hspace, hno | hdoc | hopen⟩ := hat
      · have hnext := h.until hs hin hrun hno.not_doc (Nat.le_succ s.pos) hlt
        have hno' : NoComment src' s.pos := by
          rw [NoComment, hhere, hnext]
          exact hno
        rw [skipAhead_here hspace hno, skipAhead_here (hhere ▸ hspace) hno', Option.map_some,
          Option.map_some, h.lookKind hhere]
      · have hfar := doc_end hdoc hrun
        have hnext : src'.byte (s.pos + 1) = src.byte (s.pos + 1) :=
          h.other _ fun hslash => by
            have := ((docSlash_iff hs hrun (Nat.le_succ _) (by omega)).mp hslash).2
            omega
        rw [skipAhead_line hdoc.1 hdoc.2.1, skipAhead_line (hhere ▸ hdoc.1) (hnext ▸ hdoc.2.1),
          h.skipWhile (p := (· != ch '\n')) rfl, ← round_doc hdoc hrun]
        exact hrest fuel
      · obtain ⟨left, hblock⟩ := round_unfinished hopen hrun
        have huntil {i : Nat} := h.until hs hin hrun (fun hdoc => hdoc.not_unfinished hopen)
          (i := i)
        have hblock' := blockComment_congr h.size hblock fun i hi hle => huntil (by omega) hle
        rw [← h.size] at hblock'
        rw [skipAhead_block hopen.1 hopen.2.1 hblock, skipAhead_block (hhere ▸ hopen.1)
          (huntil (Nat.le_succ _) hlt ▸ hopen.2.1) hblock']
        exact hrest fuel

/-! ## One round -/

theorem Undocumented.looksOn (h : Undocumented src src') (hs : Course src .start s) :
    LooksOn src' s.pos ↔ LooksOn src s.pos := by
  have hlook := @Undocumented.look src src' h _ s (src.size + 1) (Nat.le_refl _) hs
  rw [LooksOn, LooksOn, peekNextKind_eq, peekNextKind_eq, h.size, hlook]

/-- The tokens that are no doc comments. -/
def codeTokens (tokens : List Token) : List Token := tokens.filter fun t => t.kind != .docComment

/-- The kind of the last token, errors aside. -/
def lastKind (tokens : List Token) : TokenKind :=
  ((tokens.filter fun t => t.kind != .error).getLast?.map (·.kind)).getD .eof

theorem codeTokens_snoc (tokens : List Token) {token : Token} (h : token.kind ≠ .docComment) :
    codeTokens (tokens ++ [token]) = codeTokens tokens ++ [token] := by
  simp [codeTokens, h]

theorem codeTokens_doc (tokens : List Token) {token : Token} (h : token.kind = .docComment) :
    codeTokens (tokens ++ [token]) = codeTokens tokens := by
  simp [codeTokens, h]

theorem lastKind_snoc (tokens : List Token) {token : Token} (h : token.kind ≠ .error) :
    lastKind (tokens ++ [token]) = token.kind := by
  simp [lastKind, h]

theorem lastKind_error (tokens : List Token) {token : Token} (h : token.kind = .error) :
    lastKind (tokens ++ [token]) = lastKind tokens := by
  simp [lastKind, h]

/-- Where no doc comment is last, the code tokens have the same last kind. -/
theorem lastKind_codeTokens {tokens : List Token} (h : lastKind tokens ≠ .docComment) :
    lastKind (codeTokens tokens) = lastKind tokens := by
  induction tokens using List.reverseRecOn with
  | nil => rfl
  | append_singleton tokens token ih =>
    by_cases herror : token.kind = .error
    · rw [lastKind_error _ herror] at h ⊢
      rw [codeTokens_snoc _ (by rw [herror]; decide), lastKind_error _ herror, ih h]
    · rw [lastKind_snoc _ herror] at h ⊢
      rw [codeTokens_snoc _ h, lastKind_snoc _ herror]

/-- The lexer remembers the last token that is no error. -/
def Recalls (s : LexState) : Prop := s.lastSignificant = lastKind s.out

theorem recalls_kept (src : Source) : Kept src Recalls where
  move _ _ h := h
  push s kind start length hkind _ :=
    (@lastKind_snoc s.out ⟨kind, src.spanAt start length⟩ hkind.1).symm
  error s start length _ _ h :=
    h.trans (@lastKind_error s.out ⟨.error, src.spanAt start length⟩ rfl).symm

theorem recalls_course (hs : Course src .start s) : Recalls s := (recalls_kept src).course hs rfl

/-- A newline behind a doc comment that hides a token that ends a statement. -/
structure Silenced (src : Source) (s : LexState) : Prop where
  newline : src.byte s.pos = ch '\n'
  doc : s.lastSignificant = .docComment
  statement : insertsSemi (lastKind (codeTokens s.out)) = true
  ahead : ¬ LooksOn src (s.pos + 1)

/-- The runs over both texts stand at one position. What is kept in the second one ends a statement
wherever it does in the first, and up to the first silenced newline the code tokens are the same. -/
structure Twin (s s' : LexState) : Prop where
  pos : s'.pos = s.pos
  statement : insertsSemi s.lastSignificant = true → insertsSemi s'.lastSignificant = true
  out : s'.out = codeTokens s.out ∨ (codeTokens s.out).length < s'.out.length

theorem ne_of_longer {a b : List Token} (h : a.length < b.length) : b ≠ a := by
  rintro rfl
  exact Nat.lt_irrefl _ h

/-- Both runs make the same token. -/
theorem Twin.push (h : Twin s s') (hpush : SamePush src s s' u u') :
    Twin u u' ∧ (u'.out = codeTokens u.out ↔ s'.out = codeTokens s.out) := by
  have hboth {kind : TokenKind} (hkind : kind ≠ .docComment) (span : Diag.Span)
      (hu : u.out = s.out ++ [⟨kind, span⟩]) (hu' : u'.out = s'.out ++ [⟨kind, span⟩]) :
      (u'.out = codeTokens u.out ∨ (codeTokens u.out).length < u'.out.length) ∧
        (u'.out = codeTokens u.out ↔ s'.out = codeTokens s.out) := by
    rw [hu, hu', codeTokens_snoc _ hkind, List.length_append, List.length_append,
      Nat.add_lt_add_iff_right, List.append_left_inj]
    exact ⟨h.out, Iff.rfl⟩
  cases hpush with
  | significant kind start length stop hkind =>
    obtain ⟨hout, hiff⟩ := hboth hkind _ rfl rfl
    exact ⟨⟨rfl, id, hout⟩, hiff⟩
  | error start length code message stop =>
    obtain ⟨hout, hiff⟩ := hboth (by decide) _ rfl rfl
    exact ⟨⟨rfl, h.statement, hout⟩, hiff⟩

/-- The second run only moves, over a doc comment of the first or with it. -/
theorem Twin.pass (h : Twin s s') (hpos : u'.pos = u.pos)
    (hcode : codeTokens u.out = codeTokens s.out)
    (hlast : insertsSemi u.lastSignificant = true → insertsSemi s.lastSignificant = true)
    (hout' : u'.out = s'.out) (hlast' : u'.lastSignificant = s'.lastSignificant) :
    Twin u u' ∧ (u'.out = codeTokens u.out ↔ s'.out = codeTokens s.out) := by
  rw [hout', hcode]
  refine ⟨⟨hpos, fun hsemi => ?_, ?_⟩, Iff.rfl⟩
  · rw [hlast']
    exact h.statement (hlast hsemi)
  · rw [hout', hcode]
    exact h.out

theorem Undocumented.newline (h : Undocumented src src') (ht : Twin s s')
    (hnl : src.byte s.pos = ch '\n') (hnl' : src'.byte s'.pos = ch '\n')
    (hs : Course src .start s) (hs' : Course src' .start s') (hrun : src.newline s = some u)
    (hu : Course src .start u) :
    ∃ u', src'.newline s' = some u' ∧ (Course src' .start u' → Twin u u' ∧
      (u'.out = codeTokens u.out ↔ s'.out = codeTokens s.out ∧ ¬ Silenced src s)) := by
  obtain ⟨u', hrun', -⟩ := newline_step hnl'
  refine ⟨u', hrun', fun hu' => ?_⟩
  obtain ⟨hpos, hcases⟩ := newline_cases hrun
  obtain ⟨hpos', hcases'⟩ := newline_cases hrun'
  have hlook : LooksOn src' (s'.pos + 1) ↔ LooksOn src (s.pos + 1) := by
    rw [ht.pos, ← hpos]
    exact h.looksOn hu
  have hsamePos : u'.pos = u.pos := by rw [hpos, hpos', ht.pos]
  have hr := recalls_course hs
  have hr' := recalls_course hs'
  have hru := recalls_course hu
  have hru' := recalls_course hu'
  have hspan : src'.spanAt s'.pos 1 = src.spanAt s.pos 1 := by rw [h.spanAt, ht.pos]
  obtain ⟨hsemi, hahead, hout⟩ | ⟨hahead, hout⟩ := hcases
  · have hloud : ¬ Silenced src s := fun hq => by
      rw [hq.doc] at hsemi
      cases hsemi
    obtain ⟨-, -, hout'⟩ | ⟨hahead', -⟩ := hcases'
    · rw [hspan] at hout'
      have hcode : codeTokens u.out = codeTokens s.out ++ [⟨.semicolon, src.spanAt s.pos 1⟩] := by
        rw [hout]
        exact codeTokens_snoc _ (show TokenKind.semicolon ≠ .docComment by decide)
      refine ⟨⟨hsamePos, fun hno => ?_, ?_⟩, ?_⟩
      · rw [hru, hout, lastKind_snoc _ (show TokenKind.semicolon ≠ .error by decide)] at hno
        cases hno
      · rw [hcode, hout', List.length_append, List.length_append, Nat.add_lt_add_iff_right,
          List.append_left_inj]
        exact ht.out
      · rw [hcode, hout', List.append_left_inj, and_iff_left hloud]
    · exact absurd (hlook.mp (hahead' (ht.statement hsemi))) hahead
  · have hkeep : u.lastSignificant = s.lastSignificant := by rw [hru, hr, hout]
    obtain ⟨hsemi', hahead', hout'⟩ | ⟨hahead', hout'⟩ := hcases'
    · have hno : insertsSemi s.lastSignificant ≠ true := fun hsemi =>
        hahead' (hlook.mpr (hahead hsemi))
      have hlength : (codeTokens u.out).length < u'.out.length := by
        rw [hout, hout', List.length_append]
        obtain heq | hlt := ht.out
        · rw [heq]
          exact Nat.lt_succ_self _
        · exact Nat.lt_succ_of_lt hlt
      refine ⟨⟨hsamePos, fun hsemi => absurd (hkeep ▸ hsemi) hno, .inr hlength⟩,
        iff_of_false (ne_of_longer hlength) ?_⟩
      intro ⟨heq, hloud⟩
      rw [hr', heq] at hsemi'
      refine hloud ⟨hnl, ?_, hsemi', fun hon => hahead' (hlook.mpr hon)⟩
      by_contra hdoc
      rw [hr] at hdoc hno
      rw [lastKind_codeTokens hdoc] at hsemi'
      exact hno hsemi'
    · have hkeep' : u'.lastSignificant = s'.lastSignificant := by rw [hru', hr', hout']
      obtain ⟨htwin, hiff⟩ := ht.pass hsamePos (by rw [hout]) (fun hsemi => hkeep ▸ hsemi) hout'
        hkeep'
      refine ⟨htwin, hiff.trans (and_iff_left_of_imp fun heq hq => ?_).symm⟩
      have hsemi' := hq.statement
      rw [← heq, ← hr'] at hsemi'
      exact hq.ahead (hlook.mp (hahead' hsemi'))

theorem round_blank (hblank : isBlank (src.byte s.pos) = true) :
    src.round s = some (s.advance 1) := by
  rw [Source.round, if_pos hblank]

theorem round_newline (hnl : src.byte s.pos = ch '\n') : src.round s = src.newline s := by
  rw [Source.round, hnl]
  rfl

theorem round_line (h1 : src.byte s.pos = ch '/') (h2 : src.byte (s.pos + 1) = ch '/') :
    src.round s = some (src.lineComment s) := by
  rw [Source.round, h1, h2]
  rfl

theorem round_block (h1 : src.byte s.pos = ch '/') (h2 : src.byte (s.pos + 1) = ch '*') :
    src.round s = src.openComment s := by
  rw [Source.round, h1, h2]
  rfl

theorem round_code (hspace : isSpace (src.byte s.pos) = false) (hno : NoComment src s.pos) :
    src.round s = src.lexToken s := by
  rw [isSpace, Bool.or_eq_false_iff] at hspace
  unfold Source.round
  dsimp only
  rw [if_neg (by rw [hspace.1]; decide), if_neg (by rw [hspace.2]; decide), if_neg, if_neg]
  · intro hc
    rw [Bool.and_eq_true, beq_iff_eq, beq_iff_eq] at hc
    exact hno ⟨hc.1, .inr hc.2⟩
  · intro hc
    rw [Bool.and_eq_true, beq_iff_eq, beq_iff_eq] at hc
    exact hno ⟨hc.1, .inl hc.2⟩

/-- A comment to the end of its line passes over what stands on it. -/
theorem line_end {text : List UInt8} {pos : Nat} (h : src.TextAt pos text)
    (hline : ∀ c ∈ text, (c != ch '\n') = true) :
    pos + text.length ≤ src.skipWhile (· != ch '\n') pos := by
  rw [h.skipWhile hline]
  exact src.le_skipWhile _ _

theorem lineComment_doc (hdoc : OpensDoc src s.pos) : src.lineComment s =
    src.pushSignificant .docComment s.pos (src.skipWhile (· != ch '\n') (s.pos + 3) - s.pos)
      { s with pos := src.skipWhile (· != ch '\n') (s.pos + 3) } := by
  rw [Source.lineComment, if_pos hdoc.2.2]

theorem lineComment_plain
    (hplain : (src.byte (s.pos + 2) == ch '/' && src.byte (s.pos + 3) != ch '/') = false) :
    src.lineComment s = { s with pos := src.skipWhile (· != ch '\n') s.pos } := by
  rw [Source.lineComment, hplain]
  rfl

theorem Undocumented.round_doc (h : Undocumented src src') (ht : Twin s s')
    (hs : Course src .start s) (hdoc : OpensDoc src s.pos) (hrun : src.round s = some u) :
    ∃ u', src'.round s' = some u' ∧ Twin u u' ∧
      (u'.out = codeTokens u.out ↔ s'.out = codeTokens s.out) := by
  have hfar := doc_end hdoc hrun
  have hstop := Lexer.round_doc hdoc hrun
  have hfirst : src'.byte s'.pos = ch '/' := by rw [ht.pos, h.here hs, hdoc.1]
  have hsecond : src'.byte (s'.pos + 1) = ch '/' := by
    rw [ht.pos, h.other _ fun hslash => ?_, hdoc.2.1]
    have := ((docSlash_iff hs hrun (Nat.le_succ _) (by omega)).mp hslash).2
    omega
  have hthird : src'.byte (s'.pos + 2) = ch ' ' := by
    rw [ht.pos]
    exact h.space _ ⟨s, hs, hdoc, rfl⟩
  rw [round_line hdoc.1 hdoc.2.1, lineComment_doc hdoc, Option.some.injEq] at hrun
  subst hrun
  refine ⟨_, (round_line hfirst hsecond).trans (congrArg some
    (lineComment_plain (by rw [hthird]; rfl))), ?_⟩
  refine ht.pass ?_ (codeTokens_doc _ rfl) (fun hsemi => (nomatch hsemi)) rfl rfl
  rw [hstop, ht.pos]
  exact h.skipWhile (p := (· != ch '\n')) rfl s.pos

theorem Undocumented.round_line (h : Undocumented src src') (ht : Twin s s')
    (hs : Course src .start s) (hin : src.atEnd s.pos = false) (hdoc : ¬ OpensDoc src s.pos)
    (h1 : src.byte s.pos = ch '/') (h2 : src.byte (s.pos + 1) = ch '/')
    (hrun : src.round s = some u) :
    ∃ u', src'.round s' = some u' ∧ Twin u u' ∧
      (u'.out = codeTokens u.out ↔ s'.out = codeTokens s.out) := by
  have huntil {i : Nat} := h.until hs hin hrun hdoc (i := i)
  have hlt := round_lt hin hrun
  have hplain : (src.byte (s.pos + 2) == ch '/' && src.byte (s.pos + 3) != ch '/') = false :=
    Bool.eq_false_iff.mpr fun h3 => hdoc ⟨h1, h2, h3⟩
  rw [Lexer.round_line h1 h2, lineComment_plain hplain, Option.some.injEq] at hrun
  subst hrun
  have hfirst : src'.byte s'.pos = ch '/' := by rw [ht.pos, h.here hs, h1]
  have hsecond : src'.byte (s'.pos + 1) = ch '/' := by
    rw [ht.pos, huntil (Nat.le_succ _) hlt, h2]
  have hplain' : (src'.byte (s'.pos + 2) == ch '/' && src'.byte (s'.pos + 3) != ch '/') =
      false := by
    rw [Bool.eq_false_iff, ht.pos]
    intro h3
    rw [Bool.and_eq_true, beq_iff_eq, bne_iff_ne] at h3
    -- a third slash stays one, and then the fourth one does, too
    have hthird : src.byte (s.pos + 2) = ch '/' := by
      rw [← h3.1]
      refine (h.other _ fun hslash => ?_).symm
      rw [h.space _ hslash] at h3
      exact absurd h3.1 (by decide)
    have hslashes : src.TextAt s.pos [ch '/', ch '/', ch '/'] := by
      have hin {i : Nat} (hi : src.byte i = ch '/') : i < src.size :=
        Source.lt_of_byte_ne (by rw [hi]; decide)
      exact Source.textAt_cons.mpr ⟨hin h1, h1, Source.textAt_cons.mpr ⟨hin h2, h2,
        Source.textAt_cons.mpr ⟨hin hthird, hthird, src.textAt_nil _⟩⟩⟩
    rw [huntil (i := s.pos + 3) (by omega) (line_end hslashes slashes_in_line)] at h3
    exact Bool.eq_false_iff.mp hplain (by rw [hthird]; simpa using h3.2)
  refine ⟨_, (Lexer.round_line hfirst hsecond).trans (congrArg some (lineComment_plain hplain')),
    ht.pass ?_ rfl id rfl rfl⟩
  rw [ht.pos]
  exact h.skipWhile (p := (· != ch '\n')) rfl s.pos

theorem Undocumented.round_block (h : Undocumented src src') (ht : Twin s s')
    (hs : Course src .start s) (hin : src.atEnd s.pos = false)
    (h1 : src.byte s.pos = ch '/') (h2 : src.byte (s.pos + 1) = ch '*')
    (hrun : src.round s = some u) :
    ∃ u', src'.round s' = some u' ∧ Twin u u' ∧
      (u'.out = codeTokens u.out ↔ s'.out = codeTokens s.out) := by
  have hdoc : ¬ OpensDoc src s.pos := fun hdoc => by
    rw [hdoc.2.1] at h2
    exact absurd h2 (by decide)
  have huntil {i : Nat} := h.until hs hin hrun hdoc (i := i)
  have hlt := round_lt hin hrun
  have hfirst : src'.byte s'.pos = ch '/' := by rw [ht.pos, h.here hs, h1]
  have hsecond : src'.byte (s'.pos + 1) = ch '*' := by
    rw [ht.pos, huntil (Nat.le_succ _) hlt, h2]
  rw [Lexer.round_block h1 h2, Source.openComment] at hrun
  obtain ⟨⟨stop, left⟩, hblock, hrun⟩ := Option.bind_eq_some_iff.1 hrun
  dsimp only at hrun
  have hstop : u.pos = stop := by
    split at hrun
    · rw [← Option.some.inj hrun]
      rfl
    · rw [← Option.some.inj hrun]
  have hblock' := blockComment_congr h.size hblock fun i hi hle =>
    huntil (by omega) (by omega)
  rw [← h.size, ← ht.pos] at hblock'
  rw [Lexer.round_block hfirst hsecond, Source.openComment, hblock']
  simp only [Option.bind_eq_bind, Option.bind_some]
  split at hrun
  · next hleft =>
    rw [if_pos hleft, ← Option.some.inj hrun, h.emitError, ht.pos]
    exact ⟨_, rfl, ht.push (.error s.pos _ _ _ stop)⟩
  · next hleft =>
    rw [if_neg hleft, ← Option.some.inj hrun]
    exact ⟨_, rfl, ht.pass rfl rfl id rfl rfl⟩

/-- What a round of the first run is in the second: nothing but a silenced newline tells them
apart. -/
theorem Undocumented.round (h : Undocumented src src') (ht : Twin s s') (hs : Course src .start s)
    (hs' : Course src' .start s') (hin : src.atEnd s.pos = false) (hrun : src.round s = some u) :
    ∃ u', src'.round s' = some u' ∧ Twin u u' ∧
      (u'.out = codeTokens u.out ↔ s'.out = codeTokens s.out ∧ ¬ Silenced src s) := by
  have hu : Course src .start u := hs.trans (.step hin hrun (.refl u))
  have hlt := round_lt hin hrun
  have hhere : src'.byte s'.pos = src.byte s.pos := by rw [ht.pos, h.here hs]
  have hin' : src'.atEnd s'.pos = false := by rw [h.atEnd, ht.pos, hin]
  by_cases hnl : src.byte s.pos = ch '\n'
  · obtain ⟨u', hrun', hrest⟩ := h.newline ht hnl (hhere.trans hnl) hs hs'
      ((round_newline hnl).symm.trans hrun) hu
    have hround' : src'.round s' = some u' := (round_newline (hhere.trans hnl)).trans hrun'
    exact ⟨u', hround', hrest (hs'.trans (.step hin' hround' (.refl u')))⟩
  -- elsewhere nothing is silenced
  have hloud : ¬ Silenced src s := fun hq => hnl hq.newline
  suffices hgoal : ∃ u', src'.round s' = some u' ∧ Twin u u' ∧
      (u'.out = codeTokens u.out ↔ s'.out = codeTokens s.out) by
    obtain ⟨u', hround', htwin, hiff⟩ := hgoal
    exact ⟨u', hround', htwin, hiff.trans (and_iff_left hloud).symm⟩
  by_cases hblank : isBlank (src.byte s.pos) = true
  · rw [round_blank hblank, Option.some.injEq] at hrun
    subst hrun
    exact ⟨s'.advance 1, round_blank (hhere ▸ hblank),
      ht.pass (congrArg (· + 1) ht.pos) rfl id rfl rfl⟩
  have hspace : isSpace (src.byte s.pos) = false := by
    rw [isSpace, Bool.or_eq_false_iff]
    exact ⟨by simpa using hblank, by simpa using hnl⟩
  by_cases hdoc : OpensDoc src s.pos
  · exact h.round_doc ht hs hdoc hrun
  have hnext : src'.byte (s'.pos + 1) = src.byte (s.pos + 1) := by
    rw [ht.pos]
    exact h.until hs hin hrun hdoc (Nat.le_succ _) hlt
  by_cases hline : src.byte s.pos = ch '/' ∧ src.byte (s.pos + 1) = ch '/'
  · exact h.round_line ht hs hin hdoc hline.1 hline.2 hrun
  by_cases hblock : src.byte s.pos = ch '/' ∧ src.byte (s.pos + 1) = ch '*'
  · exact h.round_block ht hs hin hblock.1 hblock.2 hrun
  · have hno : NoComment src s.pos := fun hc => hc.2.elim (fun h2 => hline ⟨hc.1, h2⟩)
      fun h2 => hblock ⟨hc.1, h2⟩
    have hno' : NoComment src' s'.pos := by
      rw [NoComment, hhere, hnext]
      exact hno
    rw [round_code hspace hno] at hrun
    obtain ⟨u', hrun', hpush⟩ := lexToken_same ht.pos hrun
    have hpos : s'.pos ≤ src.size := by
      rw [ht.pos]
      exact Nat.le_of_lt (Source.atEnd_eq_false.mp hin)
    refine ⟨u', ?_, ht.push hpush⟩
    rw [round_code (hhere ▸ hspace) hno', h.lexToken hpos (by rw [hhere, ht.pos]), hrun']

/-! ## Whole runs -/

theorem twin_start : Twin .start .start := ⟨rfl, id, .inl rfl⟩

/-- At the end of both runs, the code tokens are the same exactly when no newline was silenced. -/
theorem Undocumented.course (h : Undocumented src src') {e : LexState} (hrest : Course src s e)
    (hend : src.atEnd e.pos = true) (ht : Twin s s') (hs : Course src .start s)
    (hs' : Course src' .start s') : ∃ e', Course src' .start e' ∧ Twin e e' ∧
      (e'.out = codeTokens e.out ↔ s'.out = codeTokens s.out ∧
        ∀ v, Course src s v → ¬ Silenced src v) := by
  induction hrest generalizing s' with
  | refl s =>
    refine ⟨s', hs', ht, (and_iff_left fun v hv hq => ?_).symm⟩
    cases hv with
    | refl =>
      rw [Source.atEnd_eq_true] at hend
      exact absurd ((src.byte_of_le hend).symm.trans hq.newline) (by decide)
    | step hin _ _ =>
      rw [hend] at hin
      cases hin
  | @step s u e hin hrun _ ih =>
    obtain ⟨u', hrun', htwin, hiff⟩ := h.round ht hs hs' hin hrun
    have hin' : src'.atEnd s'.pos = false := by rw [h.atEnd, ht.pos, hin]
    obtain ⟨e', he', htwin', hiff'⟩ := ih hend htwin (hs.trans (.step hin hrun (.refl u)))
      (hs'.trans (.step hin' hrun' (.refl u')))
    refine ⟨e', he', htwin', ?_⟩
    rw [hiff', hiff, and_assoc, and_congr_right_iff]
    intro _
    constructor
    · intro ⟨hloud, hrest⟩ v hv
      cases hv with
      | refl => exact hloud
      | step _ hrun'' hv =>
        rw [hrun, Option.some.injEq] at hrun''
        exact hrest v (hrun'' ▸ hv)
    · intro hall
      exact ⟨hall s (.refl s), fun v hv => hall v (.step hin hrun hv)⟩

/-- Where the doc comments start that the lexer comes to. -/
def Source.docStarts (src : Source) : Nat → LexState → List Nat
  | 0, _ => []
  | fuel + 1, s =>
    if src.atEnd s.pos then []
    else
      (if src.byte s.pos == ch '/' && src.byte (s.pos + 1) == ch '/' &&
          (src.byte (s.pos + 2) == ch '/' && src.byte (s.pos + 3) != ch '/') then [s.pos] else []) ++
        ((src.round s).elim [] (docStarts src fuel))

/-- The text with the third slash of every doc comment replaced by a space. -/
def Source.plainComments (src : Source) : Source :=
  let starts := src.docStarts (src.size + 1) .start
  { src with bytes := src.bytes.mapIdx fun i c => if i ∈ starts.map (· + 2) then ch ' ' else c }

theorem mem_docStarts {p : Nat} : ∀ {fuel : Nat} {s : LexState}, src.size - s.pos < fuel →
    (p ∈ src.docStarts fuel s ↔ ∃ v, Course src s v ∧ OpensDoc src v.pos ∧ v.pos = p) := by
  intro fuel
  induction fuel with
  | zero =>
    intro s hfuel
    omega
  | succ fuel ih =>
    intro s hfuel
    unfold Source.docStarts
    cases hin : src.atEnd s.pos with
    | true =>
      refine iff_of_false List.not_mem_nil ?_
      intro ⟨v, hv, hdoc, _⟩
      cases hv with
      | refl => exact (atToken_end (Source.atEnd_eq_true.mp hin)).2.not_doc hdoc
      | step hin' _ _ =>
        rw [hin] at hin'
        cases hin'
    | false =>
      obtain ⟨u, hrun, hlt⟩ := round_total hin
      have hopens : (src.byte s.pos == ch '/' && src.byte (s.pos + 1) == ch '/' &&
          (src.byte (s.pos + 2) == ch '/' && src.byte (s.pos + 3) != ch '/')) = true ↔
          OpensDoc src s.pos := by
        rw [Bool.and_eq_true, Bool.and_eq_true (_ == _), beq_iff_eq, beq_iff_eq, OpensDoc,
          and_assoc]
      rw [if_neg Bool.false_ne_true, hrun, Option.elim_some, List.mem_append,
        ih (by have := Source.atEnd_eq_false.mp hin; omega)]
      constructor
      · rintro (hhere | ⟨v, hv, hrest⟩)
        · split at hhere
          · next hc => exact ⟨s, .refl s, hopens.mp hc, (List.mem_singleton.mp hhere).symm⟩
          · cases hhere
        · exact ⟨v, .step hin hrun hv, hrest⟩
      · intro ⟨v, hv, hdoc, hp⟩
        cases hv with
        | refl =>
          left
          rw [if_pos (hopens.mpr hdoc), hp]
          exact List.mem_singleton_self _
        | step _ hrun' hv =>
          rw [hrun, Option.some.injEq] at hrun'
          exact .inr ⟨v, hrun' ▸ hv, hdoc, hp⟩

theorem undocumented_plainComments (src : Source) : Undocumented src src.plainComments := by
  have hslash (i : Nat) : i ∈ (src.docStarts (src.size + 1) .start).map (· + 2) ↔
      DocSlash src i := by
    rw [List.mem_map]
    constructor
    · intro ⟨p, hp, hi⟩
      obtain ⟨v, hv, hdoc, rfl⟩ := (mem_docStarts (Nat.lt_succ_of_le (Nat.sub_le _ _))).mp hp
      exact ⟨v, hv, hdoc, hi.symm⟩
    · intro ⟨v, hv, hdoc, hi⟩
      exact ⟨v.pos, (mem_docStarts (Nat.lt_succ_of_le (Nat.sub_le _ _))).mpr ⟨v, hv, hdoc, rfl⟩,
        hi.symm⟩
  have hbyte {i : Nat} (hlt : i < src.size) : src.plainComments.byte i =
      if i ∈ (src.docStarts (src.size + 1) .start).map (· + 2) then ch ' ' else src.byte i := by
    have hlt' : i < src.bytes.length := hlt
    simp [Source.byte, Source.plainComments, List.getD_eq_getElem?_getD,
      List.getElem?_eq_getElem hlt']
  have hsize : src.plainComments.size = src.size := by simp [Source.size, Source.plainComments]
  refine ⟨hsize, rfl, fun i hi => ?_, fun i hi => ?_⟩
  · have hlt : i < src.size := Source.lt_of_byte_ne (by rw [hi.byte]; decide)
    rw [hbyte hlt, if_pos ((hslash i).mpr hi)]
  · obtain hlt | hge := Nat.lt_or_ge i src.size
    · rw [hbyte hlt, if_neg fun hc => hi ((hslash i).mp hc)]
    · rw [Source.byte_of_le hge, Source.byte_of_le (hsize ▸ hge)]

/-- Making doc comments ordinary ones takes their tokens away and changes nothing else. -/
def DocsNeutral (src : Source) : Prop :=
  ∀ t t', src.tokenize = some t → src.plainComments.tokenize = some t' →
    t'.out = codeTokens t.out

/-- **Doc comments.** They change no other token exactly where no newline behind one is silenced: a
newline where the last token is a doc comment, the last one before it that is neither doc comment
nor error ends a statement, and the look ahead does not go on. -/
theorem docsNeutral_iff (src : Source) : DocsNeutral src ↔
    ∀ s, Course src .start s → ¬ Silenced src s := by
  have h := undocumented_plainComments src
  obtain ⟨t, ht, -⟩ := tokenize_reports src
  obtain ⟨t', ht', -⟩ := tokenize_reports src.plainComments
  obtain ⟨e, he, hend, rfl, -⟩ := tokenize_course ht
  obtain ⟨f, hf, hfend, rfl, -⟩ := tokenize_course ht'
  obtain ⟨e', he', htwin, hiff⟩ := h.course he hend twin_start (.refl _) (.refl _)
  have hsame : e' = f := by
    cases he'.ahead hf hfend with
    | refl => rfl
    | step hin _ _ =>
      rw [h.atEnd, htwin.pos, hend] at hin
      cases hin
  subst hsame
  have hout : (src.plainComments.pushSignificant .eof e'.pos 0 e').out =
      codeTokens (src.pushSignificant .eof e.pos 0 e).out ↔ e'.out = codeTokens e.out := by
    show e'.out ++ [⟨.eof, src.plainComments.spanAt e'.pos 0⟩] =
      codeTokens (e.out ++ [⟨.eof, src.spanAt e.pos 0⟩]) ↔ _
    rw [codeTokens_snoc _ (show TokenKind.eof ≠ .docComment by decide), h.spanAt, htwin.pos,
      List.append_left_inj]
  rw [← hiff.trans (and_iff_right rfl), ← hout]
  constructor
  · exact fun hneutral => hneutral _ _ ht ht'
  · intro heq u u' hu hu'
    rw [ht, Option.some.injEq] at hu
    rw [ht', Option.some.injEq] at hu'
    rw [← hu, ← hu', heq]

/-- A statement with a doc comment behind it, and another statement. -/
def trailingDoc : Source := ⟨bytesOf "a /// d\nb", 0⟩

/-- The ordinary comment ends the statement. -/
theorem trailingDoc_not_neutral : ¬ DocsNeutral trailingDoc ∧
    (trailingDoc.tokenize.map fun t => t.out.map (·.kind)) =
      some [.ident, .docComment, .ident, .eof] ∧
    (trailingDoc.plainComments.tokenize.map fun t => t.out.map (·.kind)) =
      some [.ident, .semicolon, .ident, .eof] := by
  have hplain : (trailingDoc.plainComments.tokenize.map fun t => t.out.map (·.kind)) =
      some [.ident, .semicolon, .ident, .eof] := by decide
  have hcode : (trailingDoc.tokenize.map fun t => (codeTokens t.out).map (·.kind)) =
      some [.ident, .ident, .eof] := by decide
  refine ⟨fun h => ?_, by decide, hplain⟩
  obtain ⟨t, ht, hkinds⟩ := Option.map_eq_some_iff.mp hcode
  obtain ⟨t', ht', hkinds'⟩ := Option.map_eq_some_iff.mp hplain
  rw [h t t' ht ht', hkinds] at hkinds'
  exact absurd hkinds' (by decide)

end Alcy.Lexer
