import Alcy.Lexer.Steps

/-! # String and character literals

The grammar of literals, and the loop that reads them: a literal token stands exactly where the
grammar has one, and is as long as it. -/
namespace Alcy.Lexer

/-- One byte or one escape of a literal's body. -/
inductive LiteralItem (quote : UInt8) : List UInt8 → Prop
  | plain {c : UInt8} (hquote : c ≠ quote) (hslash : c ≠ ch '\\') (hline : c ≠ ch '\n') :
      LiteralItem quote [c]
  | escape {c : UInt8} (h : c ∈ [ch 'n', ch 't', ch 'r', ch '\\', ch '"', ch '\'', ch '0']) :
      LiteralItem quote [ch '\\', c]
  | unicode {digits : List UInt8} (hne : digits ≠ [])
      (hhex : ∀ d ∈ digits, isHexDigit d = true) :
      LiteralItem quote (ch '\\' :: ch 'u' :: ch '\x7b' :: (digits ++ [ch '\x7d']))

inductive LiteralBody (quote : UInt8) : List UInt8 → Prop
  | nil : LiteralBody quote []
  | cons {item rest : List UInt8} (hitem : LiteralItem quote item)
      (hrest : LiteralBody quote rest) : LiteralBody quote (item ++ rest)

/-- A string literal. -/
def StringLiteral (lit : List UInt8) : Prop :=
  ∃ body, LiteralBody (ch '"') body ∧ lit = ch '"' :: (body ++ [ch '"'])

/-- A character literal is not empty; the lexer does not count its scalars. -/
def CharLiteral (lit : List UInt8) : Prop :=
  ∃ body, LiteralBody (ch '\'') body ∧ body ≠ [] ∧ lit = ch '\'' :: (body ++ [ch '\''])

variable {src : Source} {quote : UInt8}

theorem LiteralItem.ne_nil {item : List UInt8} (h : LiteralItem quote item) : item ≠ [] := by
  cases h <;> exact List.cons_ne_nil _ _

theorem isValidEscape_iff {c : UInt8} : isValidEscape c = true ↔
    c ∈ [ch 'n', ch 't', ch 'r', ch '\\', ch '"', ch '\'', ch '0'] := by
  simp [isValidEscape, or_assoc]

/-! ## One step of the loop -/

theorem unicodeEscape_of_text {pos : Nat} {digits : List UInt8} (hne : digits ≠ [])
    (hhex : ∀ d ∈ digits, isHexDigit d = true)
    (h : src.TextAt (pos + 2) (ch '\x7b' :: (digits ++ [ch '\x7d']))) :
    src.unicodeEscape pos = some (pos + 2 + digits.length + 2) := by
  obtain ⟨_, hopen, hrest⟩ := Source.textAt_cons.mp h
  obtain ⟨hdigits, hclose⟩ := Source.textAt_append.mp hrest
  obtain ⟨_, hclose, _⟩ := Source.textAt_cons.mp hclose
  have hstop : src.skipWhile isHexDigit (pos + 3) = pos + 3 + digits.length := by
    rw [hdigits.skipWhile hhex]
    exact Source.skipWhile_of_not fun _ => by rw [hclose]; decide
  have hlen : 0 < digits.length := List.length_pos_of_ne_nil hne
  unfold Source.unicodeEscape
  rw [if_pos (by rw [hopen]; rfl), hstop, if_pos (by
    rw [hclose, Bool.and_eq_true, bne_iff_ne]
    exact ⟨by omega, rfl⟩)]
  congr 1
  omega

theorem text_of_unicodeEscape {pos stop : Nat} (h : src.unicodeEscape pos = some stop) :
    ∃ digits, digits ≠ [] ∧ (∀ d ∈ digits, isHexDigit d = true) ∧
      src.TextAt (pos + 2) (ch '\x7b' :: (digits ++ [ch '\x7d'])) ∧
      stop = pos + 2 + digits.length + 2 := by
  unfold Source.unicodeEscape at h
  split at h
  case isFalse => cases h
  case isTrue hopen =>
  dsimp only at h
  split at h
  case isFalse => cases h
  case isTrue hclose =>
  obtain ⟨hne, hclose⟩ := Bool.and_eq_true_iff.mp hclose
  have hopen := beq_iff_eq.mp hopen
  have hclose := beq_iff_eq.mp hclose
  have hle := src.le_skipWhile isHexDigit (pos + 3)
  have hlt : src.skipWhile isHexDigit (pos + 3) < src.size :=
    Source.lt_of_byte_ne (by rw [hclose]; decide)
  have hlen := @Source.slice_length src (pos + 3) _ (Nat.le_of_lt hlt)
  refine ⟨src.slice (pos + 3) (src.skipWhile isHexDigit (pos + 3)), ?_, ?_, ?_, ?_⟩
  · intro hnil
    rw [hnil, List.length_nil] at hlen
    exact absurd (show src.skipWhile isHexDigit (pos + 3) = pos + 3 by omega) (bne_iff_ne.mp hne)
  · intro d hd
    obtain ⟨i, h1, h2, rfl⟩ := Source.mem_slice (by omega) hd
    exact Source.skipWhile_all i h1 h2
  · refine Source.textAt_cons.mpr ⟨by omega, hopen, Source.textAt_append.mpr
      ⟨Source.textAt_slice, ?_⟩⟩
    rw [hlen, show pos + 2 + 1 + (src.skipWhile isHexDigit (pos + 3) - (pos + 3)) =
      src.skipWhile isHexDigit (pos + 3) by omega]
    exact Source.textAt_cons.mpr ⟨hlt, hclose, src.textAt_nil _⟩
  · rw [hlen]
    cases h
    omega

/-- The loop passes an item of the grammar. -/
theorem scanLiteral_item {item : List UInt8} (hitem : LiteralItem quote item)
    (hquote : quote ≠ ch '\\') {pos : Nat} (h : src.TextAt pos item) (fuel : Nat)
    (f : Source.Scan) :
    src.scanLiteral quote (fuel + 1) pos f =
      src.scanLiteral quote fuel (pos + item.length) { f with empty := false } := by
  cases hitem with
  | @plain c hq hs hl =>
    obtain ⟨hlt, hc, _⟩ := Source.textAt_cons.mp h
    rw [Source.scanLiteral, if_neg (by simpa using hlt)]
    simp only [hc, beq_iff_eq, hq, hs, hl, if_false, List.length_singleton]
  | @escape c hc =>
    obtain ⟨hlt, hbs, hrest⟩ := Source.textAt_cons.mp h
    obtain ⟨_, hn, _⟩ := Source.textAt_cons.mp hrest
    have hvalid := isValidEscape_iff.mpr hc
    have hline : c ≠ ch '\n' := by
      rintro rfl
      exact absurd hvalid (by decide)
    have hu : c ≠ ch 'u' := by
      rintro rfl
      exact absurd hvalid (by decide)
    rw [Source.scanLiteral, if_neg (by simpa using hlt)]
    simp only [hbs, hn, beq_iff_eq, hquote.symm, hline, hu, hvalid, if_false, if_true,
      Bool.not_true, Bool.false_eq_true, List.length_cons, List.length_nil]
    rw [if_neg (by decide)]
  | @unicode digits hne hhex =>
    obtain ⟨hlt, hbs, hrest⟩ := Source.textAt_cons.mp h
    obtain ⟨_, hn, hrest⟩ := Source.textAt_cons.mp hrest
    have hesc := unicodeEscape_of_text hne hhex hrest
    rw [Source.scanLiteral, if_neg (by simpa using hlt)]
    simp only [hbs, hn, beq_iff_eq, hquote.symm, if_false, if_true]
    rw [if_neg (by decide), if_neg (by decide), hesc]
    simp only [List.length_cons, List.length_append, List.length_nil]
    congr 1
    omega

/-- What the loop of a literal meets at `pos`, and what it does there. -/
inductive Meets (src : Source) (quote : UInt8) (pos : Nat) : Prop
  | stops (hrun : ∀ fuel f, src.scanLiteral quote (fuel + 1) pos f = some (pos, f))
  | closes (hat : src.TextAt pos [quote]) (hrun : ∀ fuel f,
      src.scanLiteral quote (fuel + 1) pos f = some (pos + 1, { f with terminated := true }))
  | item (text : List UInt8) (hitem : LiteralItem quote text) (hat : src.TextAt pos text)
      (hrun : ∀ fuel f, src.scanLiteral quote (fuel + 1) pos f =
        src.scanLiteral quote fuel (pos + text.length) { f with empty := false })
  | badEscape (hrun : ∀ fuel f, src.scanLiteral quote (fuel + 1) pos f =
      src.scanLiteral quote fuel (pos + 2) { f with empty := false, badEscape := true })

theorem meets (hquote : quote ≠ ch '\\') (pos : Nat) : Meets src quote pos := by
  by_cases hend : src.atEnd pos = true
  · exact .stops fun fuel f => by rw [Source.scanLiteral, if_pos hend]
  have hlt : pos < src.size := by simpa using hend
  by_cases hq : src.byte pos = quote
  · refine .closes (Source.textAt_cons.mpr ⟨hlt, hq, src.textAt_nil _⟩) fun fuel f => ?_
    rw [Source.scanLiteral, if_neg hend]
    simp only [hq, beq_self_eq_true, if_true]
  by_cases hl : src.byte pos = ch '\n'
  · refine .stops fun fuel f => ?_
    rw [Source.scanLiteral, if_neg hend]
    simp only [hl, beq_iff_eq, if_true] at hq ⊢
    rw [if_neg hq]
  by_cases hs : src.byte pos = ch '\\'
  swap
  · have hitem : LiteralItem quote [src.byte pos] := .plain hq hs hl
    have hat : src.TextAt pos [src.byte pos] :=
      Source.textAt_cons.mpr ⟨hlt, rfl, src.textAt_nil _⟩
    exact .item _ hitem hat fun fuel f => scanLiteral_item hitem hquote hat fuel f
  have hslash : src.TextAt pos [ch '\\'] := Source.textAt_cons.mpr ⟨hlt, hs, src.textAt_nil _⟩
  by_cases hnl : src.byte (pos + 1) = ch '\n'
  · refine .stops fun fuel f => ?_
    rw [Source.scanLiteral, if_neg hend]
    simp only [hs, hnl, beq_iff_eq, hquote.symm, if_false, if_true]
    rw [if_neg (by decide)]
  by_cases hu : src.byte (pos + 1) = ch 'u'
  · cases hesc : src.unicodeEscape pos with
    | none =>
      refine .badEscape fun fuel f => ?_
      rw [Source.scanLiteral, if_neg hend]
      simp only [hs, hu, hesc, beq_iff_eq, hquote.symm, if_false, if_true]
      rw [if_neg (by decide), if_neg (by decide)]
    | some stop =>
      obtain ⟨digits, hne, hhex, hrest, _⟩ := text_of_unicodeEscape hesc
      have hitem : LiteralItem quote _ := .unicode hne hhex
      have hat : src.TextAt pos (ch '\\' :: ch 'u' :: ch '\x7b' :: (digits ++ [ch '\x7d'])) :=
        Source.textAt_cons.mpr ⟨hlt, hs, Source.textAt_cons.mpr
          ⟨Source.lt_of_byte_ne (by rw [hu]; decide), hu, hrest⟩⟩
      exact .item _ hitem hat fun fuel f => scanLiteral_item hitem hquote hat fuel f
  · by_cases hvalid : isValidEscape (src.byte (pos + 1)) = true
    · have hitem : LiteralItem quote [ch '\\', src.byte (pos + 1)] :=
        .escape (isValidEscape_iff.mp hvalid)
      have hn : pos + 1 < src.size := Source.lt_of_byte_ne fun h0 => by
        rw [h0] at hvalid
        exact absurd hvalid (by decide)
      have hat : src.TextAt pos [ch '\\', src.byte (pos + 1)] :=
        Source.textAt_cons.mpr ⟨hlt, hs, Source.textAt_cons.mpr ⟨hn, rfl, src.textAt_nil _⟩⟩
      exact .item _ hitem hat fun fuel f => scanLiteral_item hitem hquote hat fuel f
    · refine .badEscape fun fuel f => ?_
      rw [Source.scanLiteral, if_neg hend]
      simp only [hs, hnl, hu, hvalid, beq_iff_eq, hquote.symm, if_false, if_true,
        Bool.not_false]
      rw [if_neg (by decide)]

/-! ## The whole loop -/

theorem scanLiteral_keeps_badEscape (hquote : quote ≠ ch '\\') {fuel pos stop : Nat}
    {f f' : Source.Scan} (h : src.scanLiteral quote fuel pos f = some (stop, f'))
    (hbad : f.badEscape = true) : f'.badEscape = true := by
  induction fuel generalizing pos f with
  | zero => cases h
  | succ fuel ih =>
    cases @meets src quote hquote pos with
    | stops hrun =>
      rw [hrun] at h
      cases h
      exact hbad
    | closes _ hrun =>
      rw [hrun] at h
      cases h
      exact hbad
    | item text _ _ hrun =>
      rw [hrun] at h
      exact ih h hbad
    | badEscape hrun =>
      rw [hrun] at h
      exact ih h rfl

/-- A literal of the grammar is read to its closing quote. -/
theorem scanLiteral_of_body (hquote : quote ≠ ch '\\') {body : List UInt8}
    (hbody : LiteralBody quote body) {fuel pos : Nat} {f : Source.Scan}
    (hat : src.TextAt pos (body ++ [quote])) (hfuel : src.size - pos < fuel) :
    src.scanLiteral quote fuel pos f = some (pos + body.length + 1,
      { f with terminated := true, empty := f.empty && body.isEmpty }) := by
  obtain ⟨fuel, rfl⟩ : ∃ k, fuel = k + 1 := ⟨fuel - 1, by omega⟩
  induction hbody generalizing fuel pos f with
  | nil =>
    obtain ⟨hlt, hq, _⟩ := Source.textAt_cons.mp hat
    rw [Source.scanLiteral, if_neg (by simpa using hlt)]
    simp [hq]
  | @cons item rest hitem hrest ih =>
    rw [List.append_assoc] at hat
    obtain ⟨hitemAt, hrestAt⟩ := Source.textAt_append.mp hat
    have hpos := List.length_pos_of_ne_nil hitem.ne_nil
    have hlt : pos < src.size := by
      obtain ⟨c, item', rfl⟩ := List.exists_cons_of_ne_nil hitem.ne_nil
      exact (Source.textAt_cons.mp hitemAt).1
    obtain ⟨fuel, rfl⟩ : ∃ k, fuel = k + 1 := ⟨fuel - 1, by omega⟩
    rw [scanLiteral_item hitem hquote hitemAt, ih hrestAt fuel (by omega), List.length_append]
    have hempty : (item ++ rest).isEmpty = false :=
      List.isEmpty_eq_false_iff.mpr (List.append_ne_nil_of_left_ne_nil hitem.ne_nil rest)
    simp only [hempty, Bool.and_false, Bool.false_and, Nat.add_assoc]

/-- A literal that the loop accepts is one of the grammar. -/
theorem body_of_scanLiteral (hquote : quote ≠ ch '\\') {fuel pos stop : Nat} {f f' : Source.Scan}
    (h : src.scanLiteral quote fuel pos f = some (stop, f')) (hopen : f.terminated = false)
    (hclosed : f'.terminated = true) (hgood : f'.badEscape = false) :
    ∃ body, LiteralBody quote body ∧ src.TextAt pos (body ++ [quote]) := by
  induction fuel generalizing pos f with
  | zero => cases h
  | succ fuel ih =>
    cases @meets src quote hquote pos with
    | stops hrun =>
      rw [hrun] at h
      cases h
      rw [hopen] at hclosed
      cases hclosed
    | closes hat hrun => exact ⟨[], .nil, hat⟩
    | item text hitem hat hrun =>
      rw [hrun] at h
      obtain ⟨body, hbody, hrest⟩ := ih h hopen
      refine ⟨text ++ body, .cons hitem hbody, ?_⟩
      rw [List.append_assoc]
      exact Source.textAt_append.mpr ⟨hat, hrest⟩
    | badEscape hrun =>
      rw [hrun] at h
      rw [scanLiteral_keeps_badEscape hquote h rfl] at hgood
      cases hgood

/-! ## String and character tokens -/

variable {s s' : LexState} {lit : List UInt8}

theorem lexString_of_literal (hlit : StringLiteral lit) (hat : src.TextAt s.pos lit) :
    src.lexString s = some (src.pushSignificant .string s.pos lit.length
      { s with pos := s.pos + lit.length }) := by
  obtain ⟨body, hbody, rfl⟩ := hlit
  obtain ⟨hlt, _, hrest⟩ := Source.textAt_cons.mp hat
  have hlen : s.pos + 1 + body.length + 1 = s.pos + (ch '"' :: (body ++ [ch '"'])).length := by
    simp only [List.length_cons, List.length_append, List.length_nil]
    omega
  have hrun := scanLiteral_of_body (f := Source.scanStart) (by decide) hbody hrest
    (show src.size - (s.pos + 1) < src.size + 1 by omega)
  have hgood : Source.scanStart.badEscape = false := rfl
  rw [hlen] at hrun
  simp only [Source.lexString, hrun, Option.bind_eq_bind, Option.bind_some, Option.pure_def,
    hgood, Bool.not_true, Bool.false_eq_true, if_false, Nat.add_sub_cancel_left]

theorem lexChar_of_literal (hlit : CharLiteral lit) (hat : src.TextAt s.pos lit) :
    src.lexChar s = some (src.pushSignificant .char s.pos lit.length
      { s with pos := s.pos + lit.length }) := by
  obtain ⟨body, hbody, hne, rfl⟩ := hlit
  obtain ⟨hlt, _, hrest⟩ := Source.textAt_cons.mp hat
  have hlen : s.pos + 1 + body.length + 1 = s.pos + (ch '\'' :: (body ++ [ch '\''])).length := by
    simp only [List.length_cons, List.length_append, List.length_nil]
    omega
  have hrun := scanLiteral_of_body (f := Source.scanStart) (by decide) hbody hrest
    (show src.size - (s.pos + 1) < src.size + 1 by omega)
  have hgood : Source.scanStart.badEscape = false := rfl
  rw [hlen] at hrun
  simp only [Source.lexChar, hrun, Option.bind_eq_bind, Option.bind_some, Option.pure_def,
    hgood, Bool.not_true, Bool.false_eq_true, if_false, Nat.add_sub_cancel_left,
    List.isEmpty_eq_false_iff.mpr hne, Bool.and_false]

/-- The token that `lex_string` appends is a string only for a literal of the grammar. -/
theorem literal_of_lexString (h : src.byte s.pos = ch '"') (hrun : src.lexString s = some s')
    {span : Diag.Span} (hout : s'.out = s.out ++ [⟨.string, span⟩]) :
    ∃ lit, StringLiteral lit ∧ src.TextAt s.pos lit := by
  obtain ⟨stop, f, hscan, _, _⟩ := scanLiteral_moves (.inl rfl) h
  have hlt : s.pos < src.size := Source.lt_of_byte_ne (by rw [h]; decide)
  simp only [Source.lexString, hscan, Option.bind_eq_bind, Option.bind_some, Option.pure_def,
    Option.some.injEq] at hrun
  subst hrun
  by_cases hterm : f.terminated = true
  · by_cases hbad : f.badEscape = true
    · simp [hterm, hbad, Source.emitError, Source.push] at hout
    · obtain ⟨body, hbody, hrest⟩ :=
        body_of_scanLiteral (by decide) hscan rfl hterm (Bool.eq_false_iff.mpr hbad)
      exact ⟨_, ⟨body, hbody, rfl⟩, Source.textAt_cons.mpr ⟨hlt, h, hrest⟩⟩
  · simp [hterm, Source.emitError, Source.push] at hout

theorem literal_of_lexChar (h : src.byte s.pos = ch '\'') (hrun : src.lexChar s = some s')
    {span : Diag.Span} (hout : s'.out = s.out ++ [⟨.char, span⟩]) :
    ∃ lit, CharLiteral lit ∧ src.TextAt s.pos lit := by
  obtain ⟨stop, f, hscan, _, _⟩ := scanLiteral_moves (.inr rfl) h
  have hlt : s.pos < src.size := Source.lt_of_byte_ne (by rw [h]; decide)
  simp only [Source.lexChar, hscan, Option.bind_eq_bind, Option.bind_some, Option.pure_def,
    Option.some.injEq] at hrun
  subst hrun
  by_cases hterm : f.terminated = true
  swap
  · simp [hterm, Source.emitError, Source.push] at hout
  by_cases hempty : f.empty = true
  · simp [hterm, hempty, Source.emitError, Source.push] at hout
  by_cases hbad : f.badEscape = true
  · simp [hterm, hempty, hbad, Source.emitError, Source.push] at hout
  obtain ⟨body, hbody, hrest⟩ :=
    body_of_scanLiteral (by decide) hscan rfl hterm (Bool.eq_false_iff.mpr hbad)
  have hagain := scanLiteral_of_body (f := Source.scanStart) (by decide) hbody hrest
    (show src.size - (s.pos + 1) < src.size + 1 by omega)
  have hne : body ≠ [] := by
    intro hnil
    rw [hscan, Option.some.injEq, Prod.mk.injEq] at hagain
    rw [hagain.2, hnil] at hempty
    exact hempty rfl
  exact ⟨_, ⟨body, hbody, hne, rfl⟩, Source.textAt_cons.mpr ⟨hlt, h, hrest⟩⟩

/-- **String literals.** At an opening quote, `lex_string` appends one token. It is a string exactly
where a string literal stands, and then it spans the literal and the cursor is behind it. -/
theorem lexString_string_iff (h : src.byte s.pos = ch '"') :
    ∃ s' token, src.lexString s = some s' ∧ s'.out = s.out ++ [token] ∧
      (token.kind = .string ↔ ∃ lit, StringLiteral lit ∧ src.TextAt s.pos lit) ∧
      ∀ lit, StringLiteral lit → src.TextAt s.pos lit →
        token = ⟨.string, src.spanAt s.pos lit.length⟩ ∧ s'.pos = s.pos + lit.length ∧
        (src.size < 2 ^ 32 → token.span = ⟨src.file, s.pos, lit.length⟩) := by
  obtain ⟨s', hrun, ⟨kind, hout⟩, _, _⟩ := lexString_lexes h
  have hspans : ∀ lit, StringLiteral lit → src.TextAt s.pos lit →
      kind = .string ∧ s'.pos = s.pos + lit.length := by
    intro lit hlit hat
    rw [lexString_of_literal hlit hat, Option.some.injEq] at hrun
    subst hrun
    simp only [Source.pushSignificant, Source.push, List.append_cancel_left_eq, List.cons.injEq,
      Token.mk.injEq] at hout
    exact ⟨hout.1.1.symm, rfl⟩
  refine ⟨s', _, hrun, hout, ⟨?_, ?_⟩, ?_⟩
  · rintro rfl
    exact literal_of_lexString h hrun hout
  · intro ⟨lit, hlit, hat⟩
    exact (hspans lit hlit hat).1
  · intro lit hlit hat
    obtain ⟨rfl, hpos⟩ := hspans lit hlit hat
    rw [hpos, Nat.add_sub_cancel_left]
    refine ⟨rfl, rfl, fun hsize => ?_⟩
    have hlt : s.pos < src.size := Source.lt_of_byte_ne (by rw [h]; decide)
    have hle := hat.le (Nat.le_of_lt hlt)
    show Diag.Span.mk _ _ _ = _
    rw [Nat.mod_eq_of_lt (by omega), Nat.mod_eq_of_lt (by omega)]

/-- A literal with two escapes, and text behind it. -/
def escapedString : Source := ⟨bytesOf "\"a\\u\x7b1F\x7d\\\"\" x", 0⟩

theorem escapedString_string : ∃ s' token, escapedString.lexString .start = some s' ∧
    s'.out = [token] ∧
    (token.kind = .string ↔ ∃ lit, StringLiteral lit ∧ escapedString.TextAt 0 lit) ∧
    ∀ lit, StringLiteral lit → escapedString.TextAt 0 lit →
      token = ⟨.string, escapedString.spanAt 0 lit.length⟩ ∧ s'.pos = 0 + lit.length ∧
      (escapedString.size < 2 ^ 32 → token.span = ⟨0, 0, lit.length⟩) :=
  lexString_string_iff (s := .start) (by decide)

example : (escapedString.lexString .start).map (·.out) = some [⟨.string, ⟨0, 0, 11⟩⟩] := by decide

end Alcy.Lexer
