import Alcy.Analyzer.Scopes
import Alcy.Lexer.Numbers
import Mathlib.Data.List.Infix

/-! # Literal suffixes

The lexer finds the suffix of a number from the front, where the digits of the base end; the checker
looks for it from the back, among the spellings that it knows. The two split every literal at the same
place, except that digits of hexadecimal literals can look like a suffix.
-/
namespace Alcy.Lexer.Source
open Alcy.Lexer

variable (src : Source)

/-- The characters of bytes, as the parser spells tokens. -/
def charsOf (bytes : List UInt8) : List Char := bytes.map fun b => Char.ofNat b.toNat

def spelling (start stop : Nat) : String := String.ofList (charsOf (src.slice start stop))

end Alcy.Lexer.Source

namespace Alcy.Analyzer.Bodies
open Alcy.Ir Alcy.Lexer
open Alcy.Lexer.Source (charsOf)

variable {src : Source} {s s' : LexState} {width : PointerWidth}

/-! ## What is written -/

/-- A number token that `lex_number` emits. -/
structure NumberToken (src : Source) (s s' : LexState) : Prop where
  digit : Lexer.isDigit (src.byte s.pos) = true
  run : src.lexNumber s = s'
  token : ∃ kind, s'.out = s.out ++ [⟨kind, src.spanAt s.pos (s'.pos - s.pos)⟩] ∧
    (kind = .integer ∨ kind = .float)

/-- The suffixes of the language and their types. -/
def supportedSuffixes (width : PointerWidth) : List (String × TypeTag × Bool) :=
  let (isize, usize) : TypeTag × TypeTag :=
    match width with
    | .w32 => (.i32, .u32)
    | .w64 => (.i64, .u64)
  [("i8", .i8, false), ("i16", .i16, false), ("i32", .i32, false), ("i64", .i64, false),
    ("u8", .u8, false), ("u16", .u16, false), ("u32", .u32, false), ("u64", .u64, false),
    ("isize", isize, false), ("usize", usize, false), ("f32", .f32, true), ("f64", .f64, true)]

/-- What the lexer wrote behind the body: nothing, or a suffix of the language. -/
inductive Written (width : PointerWidth) (src : Source) (s s' : LexState) : Suffix → Prop where
  | absent : src.spelling (src.bodyEnd s.pos) s'.pos = "" → Written width src s s' .absent
  | known (text : String) (tag : TypeTag) (isFloat : Bool) :
      (text, tag, isFloat) ∈ supportedSuffixes width →
      src.spelling (src.bodyEnd s.pos) s'.pos = text → Written width src s s' (.known tag isFloat)

/-- A hexadecimal literal without a suffix whose last digits look like one. -/
def TakesDigits (src : Source) (s s' : LexState) : Prop :=
  src.byte s.pos = ch '0' ∧ (src.byte (s.pos + 1) = ch 'x' ∨ src.byte (s.pos + 1) = ch 'X') ∧
    src.bodyEnd s.pos = s'.pos ∧ (Lexer.isAlpha (src.byte (s'.pos - 1)) = true ∨
      "f32".toList <:+ charsOf (src.slice s.pos s'.pos) ∨
      "f64".toList <:+ charsOf (src.slice s.pos s'.pos))

/-! ## How it is read -/

def Fits (chars : List Char) (entry : String × TypeTag × Bool) : Prop :=
  entry.1.toList.length < chars.length ∧ entry.1.toList <:+ chars

/-- At most one suffix fits. -/
theorem Fits.unique {chars : List Char} {entry entry' : String × TypeTag × Bool}
    (he : entry ∈ kSuffixes) (he' : entry' ∈ kSuffixes) (h : Fits chars entry)
    (h' : Fits chars entry') : entry = entry' := by
  have hall : ∀ e ∈ kSuffixes, ∀ e' ∈ kSuffixes, e.1.toList.isSuffixOf e'.1.toList = true → e = e' := by
    decide
  obtain hs | hs := List.suffix_or_suffix_of_suffix h.2 h'.2
  · exact hall entry he entry' he' (List.isSuffixOf_iff_suffix.2 hs)
  · exact (hall entry' he' entry he (List.isSuffixOf_iff_suffix.2 hs)).symm

theorem classifySuffix_known {chars : List Char} {text : String} {tag : TypeTag} {isFloat : Bool}
    (he : (text, tag, isFloat) ∈ kSuffixes) (h : Fits chars (text, tag, isFloat)) :
    classifySuffix width (String.ofList chars) = .known (suffixTag width text tag) isFloat := by
  unfold classifySuffix
  dsimp only
  rw [String.toList_ofList]
  split
  · next text' tag' isFloat' hfind =>
    have hfits := List.find?_some hfind
    rw [Bool.and_eq_true, decide_eq_true_eq, List.isSuffixOf_iff_suffix] at hfits
    have heq := Fits.unique (List.mem_of_find?_eq_some hfind) he hfits h
    simp only [Prod.mk.injEq] at heq
    obtain ⟨rfl, rfl, rfl⟩ := heq
    rfl
  · next hfind =>
    have hno := List.find?_eq_none.1 hfind _ he
    rw [Bool.and_eq_true, decide_eq_true_eq, List.isSuffixOf_iff_suffix] at hno
    exact absurd h hno

theorem classifySuffix_absent {chars : List Char} :
    classifySuffix width (String.ofList chars) = .absent ↔
      (∀ entry ∈ kSuffixes, ¬ Fits chars entry) ∧
        ∀ c, chars.getLast? = some c → isAlpha c = false := by
  unfold classifySuffix
  dsimp only
  rw [String.toList_ofList]
  split
  · next text tag isFloat hfind =>
    have hfits := List.find?_some hfind
    rw [Bool.and_eq_true, decide_eq_true_eq, List.isSuffixOf_iff_suffix] at hfits
    exact iff_of_false (by simp) fun h => h.1 _ (List.mem_of_find?_eq_some hfind) hfits
  · next hfind =>
    have hno : ∀ entry ∈ kSuffixes, ¬ Fits chars entry := by
      intro entry he hfits
      have hfalse := List.find?_eq_none.1 hfind _ he
      rw [Bool.and_eq_true, decide_eq_true_eq, List.isSuffixOf_iff_suffix] at hfalse
      exact hfalse hfits
    rw [and_iff_right hno]
    obtain rfl | ⟨front, c, rfl⟩ := List.eq_nil_or_concat chars
    · simp
    · rw [List.concat_eq_append, List.reverse_append, List.getLast?_concat]
      cases hc : isAlpha c with
      | true => simp [hc]
      | false => simp [hc]

theorem supportedSuffixes_mem {text : String} {tag : TypeTag} {isFloat : Bool}
    (h : (text, tag, isFloat) ∈ supportedSuffixes width) : text.toList ≠ [] ∧
      ∃ tag', (text, tag', isFloat) ∈ kSuffixes ∧ suffixTag width text tag' = tag := by
  have hall : ∀ e ∈ supportedSuffixes width, e.1.toList ≠ [] ∧
      ∃ e' ∈ kSuffixes, e'.1 = e.1 ∧ e'.2.2 = e.2.2 ∧ suffixTag width e.1 e'.2.1 = e.2.1 := by
    cases width with
    | w32 => decide
    | w64 => decide
  obtain ⟨hne, ⟨text', tag', isFloat'⟩, hmem, rfl, rfl, htag⟩ := hall _ h
  exact ⟨hne, tag', hmem, htag⟩

/-! ## Where the lexer splits -/

theorem charsOf_append (a b : List UInt8) : charsOf (a ++ b) = charsOf a ++ charsOf b :=
  List.map_append

theorem mem_charsOf_slice {start stop : Nat} {c : Char} (hs : stop ≤ src.size)
    (h : c ∈ charsOf (src.slice start stop)) :
    ∃ i, start ≤ i ∧ i < stop ∧ c = Char.ofNat (src.byte i).toNat := by
  obtain ⟨b, hb, rfl⟩ := List.mem_map.1 h
  obtain ⟨i, h1, h2, rfl⟩ := Source.mem_slice hs hb
  exact ⟨i, h1, h2, rfl⟩

theorem getLast?_charsOf_slice {start stop : Nat} (hlt : start < stop) (hs : stop ≤ src.size) :
    (charsOf (src.slice start stop)).getLast? = some (Char.ofNat (src.byte (stop - 1)).toNat) := by
  rw [charsOf, List.getLast?_map, Source.getLast?_slice hlt hs]
  rfl

theorem isAlpha_ofByte (c : UInt8) : isAlpha (Char.ofNat c.toNat) = Lexer.isAlpha c := by
  have := all_bytes (P := fun c => isAlpha (Char.ofNat c.toNat) == Lexer.isAlpha c)
    (by decide +kernel) c
  exact beq_iff_eq.1 this

/-- What follows the body is a run of letters, digits and underscores. -/
theorem lexSuffix_pos {start pos : Nat} {isFloat : Bool} :
    pos ≤ (src.lexSuffix start pos isFloat s).pos ∧
      (pos ≤ src.size → (src.lexSuffix start pos isFloat s).pos ≤ src.size) := by
  show pos ≤ (if _ then _ else _) ∧ (_ → (if _ then _ else _) ≤ _)
  split
  · next h =>
    rw [Bool.and_eq_true, Bool.not_eq_true', Source.atEnd_eq_false] at h
    have := src.le_skipWhile isAlnumOrUnderscore (pos + 1)
    exact ⟨by omega, fun _ => Source.skipWhile_le h.1⟩
  · exact ⟨Nat.le_refl _, id⟩

/-- An error token is no number. -/
theorem invalidNumber_token {start stop : Nat} (hs : src.invalidNumber start stop s = s')
    (h : ∃ kind span, s'.out = s.out ++ [⟨kind, span⟩] ∧ (kind = .integer ∨ kind = .float)) :
    False := by
  obtain ⟨kind, span, hout, hkind⟩ := h
  rw [← hs] at hout
  have heq := List.append_cancel_left hout
  simp only [List.cons.injEq, Token.mk.injEq] at heq
  rw [← heq.1.1] at hkind
  obtain hkind | hkind := hkind
  · cases hkind
  · cases hkind

theorem NumberToken.prefixed (h : NumberToken src s s') (hp : src.hasPrefix s.pos = true) :
    s.pos + 2 < src.bodyEnd s.pos ∧
      s' = src.lexSuffix s.pos (src.skipWhile isAlnumOrUnderscore (src.bodyEnd s.pos)) false s := by
  have htoken : ∃ kind span, s'.out = s.out ++ [⟨kind, span⟩] ∧
      (kind = .integer ∨ kind = .float) := by
    obtain ⟨kind, hout, hkind⟩ := h.token
    exact ⟨kind, _, hout, hkind⟩
  obtain ⟨-, -, hle, -⟩ := hasPrefix_bounds hp
  have hrun := h.run
  rw [lexNumber_prefixed hp] at hrun
  split at hrun
  · exact (invalidNumber_token hrun htoken).elim
  next hdigits =>
  split at hrun
  · exact (invalidNumber_token hrun htoken).elim
  split at hrun
  · exact (invalidNumber_token hrun htoken).elim
  refine ⟨?_, hrun.symm⟩
  obtain heq | hlt := Nat.eq_or_lt_of_le hle
  · rw [← heq, Source.slice_self] at hdigits
    exact absurd rfl hdigits
  · exact hlt

theorem NumberToken.decimal (h : NumberToken src s s') (hp : src.hasPrefix s.pos = false) :
    src.bodyEnd s.pos = (src.decimalEnd s.pos).1 ∧
      s' = src.lexSuffix s.pos (src.bodyEnd s.pos) (src.decimalEnd s.pos).2 s := by
  have htoken : ∃ kind span, s'.out = s.out ++ [⟨kind, span⟩] ∧
      (kind = .integer ∨ kind = .float) := by
    obtain ⟨kind, hout, hkind⟩ := h.token
    exact ⟨kind, _, hout, hkind⟩
  have hrun := h.run
  rw [lexNumber_decimal hp] at hrun
  refine ⟨by rw [Source.bodyEnd, if_neg (by rw [hp]; exact Bool.false_ne_true)], ?_⟩
  split at hrun
  · exact (invalidNumber_token hrun htoken).elim
  · exact hrun.symm

/-- The bytes of a decimal body. -/
def isDecimalByte (c : UInt8) : Bool :=
  Source.isDigitOrUnderscore c || c == ch '.' || c == ch 'e' || c == ch 'E' || c == ch '+' ||
    c == ch '-'

/-- Bytes of a decimal body up to here, and no letter right before. -/
structure DecimalBody (src : Source) (pos stop : Nat) : Prop where
  lt : pos < stop
  le : stop ≤ src.size
  bytes : ∀ i, pos ≤ i → i < stop → isDecimalByte (src.byte i) = true
  last : Lexer.isAlpha (src.byte (stop - 1)) = false

theorem isAlpha_of_digit {c : UInt8} (h : Source.isDigitOrUnderscore c = true) :
    Lexer.isAlpha c = false := by
  have := all_bytes (P := fun c => !Source.isDigitOrUnderscore c || !Lexer.isAlpha c)
    (by decide +kernel) c
  simpa [h] using this

theorem isDecimalByte_of_digit {c : UInt8} (h : Source.isDigitOrUnderscore c = true) :
    isDecimalByte c = true := by
  simp [isDecimalByte, h]

/-- A run of digits keeps it, when the byte before the run is no letter or the run is not empty. -/
theorem DecimalBody.skip {pos q : Nat} (hq : pos < q) (hle : q ≤ src.size)
    (hbytes : ∀ i, pos ≤ i → i < q → isDecimalByte (src.byte i) = true)
    (hlast : Lexer.isAlpha (src.byte (q - 1)) = false ∨ Lexer.isDigit (src.byte q) = true) :
    DecimalBody src pos (src.skipWhile Source.isDigitOrUnderscore q) := by
  have hge := src.le_skipWhile Source.isDigitOrUnderscore q
  refine ⟨by omega, Source.skipWhile_le hle, ?_, ?_⟩
  · intro i h1 h2
    obtain hi | hi := Nat.lt_or_ge i q
    · exact hbytes i h1 hi
    · exact isDecimalByte_of_digit (Source.skipWhile_all i hi h2)
  · obtain heq | hlt := Nat.eq_or_lt_of_le hge
    · rw [← heq]
      obtain hlast | hdigit := hlast
      · exact hlast
      · have hpos : Source.isDigitOrUnderscore (src.byte q) = true := by
          rw [Source.isDigitOrUnderscore, hdigit, Bool.true_or]
        have hin : q < src.size := Source.lt_of_byte_ne fun h0 => by
          rw [h0] at hdigit
          exact absurd hdigit (by decide)
        have hmore := src.le_skipWhile Source.isDigitOrUnderscore (q + 1)
        rw [← Source.skipWhile_of_pos hin hpos] at hmore
        omega
    · exact isAlpha_of_digit
        (@Source.skipWhile_all src Source.isDigitOrUnderscore q _ (by omega) (by omega))

/-- Digits, then a fraction, then an exponent. -/
theorem decimalEnd_spec {pos : Nat} (h : Lexer.isDigit (src.byte pos) = true) :
    DecimalBody src pos (src.decimalEnd pos).1 := by
  have hin : ∀ {i : Nat} {c : UInt8}, src.byte i = c → c ≠ 0 → i < src.size :=
    fun hi hc => Source.lt_of_byte_ne (hi ▸ hc)
  have hdigit : Source.isDigitOrUnderscore (src.byte pos) = true := by
    rw [Source.isDigitOrUnderscore, h, Bool.true_or]
  have hlt : pos < src.size := Source.lt_of_byte_ne fun h0 => by
    rw [h0] at h
    exact absurd h (by decide)
  have hwhole : DecimalBody src pos (src.skipWhile Source.isDigitOrUnderscore pos) := by
    rw [Source.skipWhile_of_pos hlt hdigit]
    refine .skip (Nat.lt_succ_self pos) hlt (fun i h1 h2 => ?_) (.inl ?_)
    · obtain rfl : i = pos := by omega
      exact isDecimalByte_of_digit hdigit
    · exact isAlpha_of_digit hdigit
  obtain ⟨whole, hw⟩ : ∃ whole, whole = src.skipWhile Source.isDigitOrUnderscore pos := ⟨_, rfl⟩
  rw [← hw] at hwhole
  -- one more byte of the body
  have hsnoc : ∀ {q : Nat}, (∀ i, pos ≤ i → i < q → isDecimalByte (src.byte i) = true) →
      isDecimalByte (src.byte q) = true →
      ∀ i, pos ≤ i → i < q + 1 → isDecimalByte (src.byte i) = true := by
    intro q hq hbyte i h1 h2
    obtain hi | rfl := Nat.lt_succ_iff_lt_or_eq.1 h2
    · exact hq i h1 hi
    · exact hbyte
  have hmantissa : DecimalBody src pos
      (if src.byte whole == ch '.' && src.byte (whole + 1) != ch '.' then
        src.skipWhile Source.isDigitOrUnderscore (whole + 1) else whole) := by
    split
    · next hdot =>
      rw [Bool.and_eq_true, beq_iff_eq] at hdot
      have hlt := hwhole.lt
      refine .skip (by omega) (hin hdot.1 (by decide)) (hsnoc hwhole.bytes ?_) (.inl ?_)
      · rw [hdot.1]
        decide
      · rw [Nat.add_sub_cancel, hdot.1]
        decide
    · exact hwhole
  unfold Source.decimalEnd
  dsimp only
  rw [← hw]
  generalize (if src.byte whole == ch '.' && src.byte (whole + 1) != ch '.' then
    src.skipWhile Source.isDigitOrUnderscore (whole + 1) else whole) = mantissa at hmantissa ⊢
  split
  · next hexp =>
    rw [Bool.and_eq_true, Bool.or_eq_true, beq_iff_eq, beq_iff_eq, Bool.or_eq_true,
      Bool.and_eq_true] at hexp
    obtain ⟨he, hnext⟩ := hexp
    have hlt := hmantissa.lt
    have hbyte : isDecimalByte (src.byte mantissa) = true := by
      obtain he | he := he
      · rw [he]
        decide
      · rw [he]
        decide
    have hinside : mantissa < src.size := he.elim (fun he => hin he (by decide))
      fun he => hin he (by decide)
    have hbytes := hsnoc hmantissa.bytes hbyte
    split
    · next hsigned =>
      rw [Bool.or_eq_true, beq_iff_eq, beq_iff_eq] at hsigned
      have hdigit : Lexer.isDigit (src.byte (mantissa + 2)) = true := by
        obtain hnext | hnext := hnext
        · obtain hs | hs := hsigned
          · rw [hs] at hnext
            exact absurd hnext (by decide)
          · rw [hs] at hnext
            exact absurd hnext (by decide)
        · exact hnext.2
      have hin' : mantissa + 1 < src.size := hsigned.elim (fun hs => hin hs (by decide))
        fun hs => hin hs (by decide)
      refine .skip (by omega) hin' (hsnoc hbytes ?_) (.inr hdigit)
      obtain hs | hs := hsigned
      · rw [hs]
        decide
      · rw [hs]
        decide
    · next hsigned =>
      have hdigit : Lexer.isDigit (src.byte (mantissa + 1)) = true := by
        obtain hnext | hnext := hnext
        · exact hnext
        · exact absurd hnext.1 hsigned
      exact .skip (by omega) hinside hbytes (.inr hdigit)
  · exact hmantissa

/-- The split is inside the token. -/
theorem NumberToken.bounds (h : NumberToken src s s') : s.pos < src.bodyEnd s.pos ∧
    src.bodyEnd s.pos ≤ s'.pos ∧ s'.pos ≤ src.size := by
  cases hp : src.hasPrefix s.pos with
  | true =>
    obtain ⟨hlt, hs⟩ := h.prefixed hp
    have hend : src.bodyEnd s.pos = src.skipWhile (Source.inBase (src.byte (s.pos + 1)))
        (s.pos + 2) := by
      rw [Source.bodyEnd, if_pos hp]
    have hin : s.pos + 1 < src.size := by
      refine Source.lt_of_byte_ne fun h0 => ?_
      rw [Source.hasPrefix, h0, Bool.and_eq_true] at hp
      exact absurd hp.2 (by decide)
    have hbody : src.bodyEnd s.pos ≤ src.size := hend ▸ Source.skipWhile_le hin
    have hword := src.le_skipWhile isAlnumOrUnderscore (src.bodyEnd s.pos)
    have hpos := @lexSuffix_pos src s s.pos
      (src.skipWhile isAlnumOrUnderscore (src.bodyEnd s.pos)) false
    rw [← hs] at hpos
    exact ⟨by omega, by omega, hpos.2 (Source.skipWhile_le hbody)⟩
  | false =>
    obtain ⟨hend, hs⟩ := h.decimal hp
    have hspec := decimalEnd_spec h.digit
    rw [← hend] at hspec
    have hpos := @lexSuffix_pos src s s.pos (src.bodyEnd s.pos) (src.decimalEnd s.pos).2
    rw [← hs] at hpos
    exact ⟨hspec.lt, hpos.1, hpos.2 hspec.le⟩

/-- A hexadecimal prefix. -/
def HasHex (src : Source) (pos : Nat) : Prop :=
  src.byte pos = ch '0' ∧ (src.byte (pos + 1) = ch 'x' ∨ src.byte (pos + 1) = ch 'X')

/-- The digits of every base but the hexadecimal one are decimal digits. -/
def digitFacts (base c : UInt8) : Bool :=
  !Source.inBase base c || (c != ch 'i' && c != ch 'u' &&
    (base == ch 'x' || base == ch 'X' || (c != ch 'f' && !Lexer.isAlpha c)))

theorem digitFacts_of_prefix {pos : Nat} (hp : src.hasPrefix pos = true) (c : UInt8) :
    digitFacts (src.byte (pos + 1)) c = true := by
  rw [Source.hasPrefix, Bool.and_eq_true] at hp
  simp only [Bool.or_eq_true, beq_iff_eq] at hp
  obtain ⟨-, ((((hb | hb) | hb) | hb) | hb) | hb⟩ := hp
  all_goals
    rw [hb]
    exact all_bytes (P := digitFacts _) (by decide +kernel) c

theorem prefix_facts {pos : Nat} (hp : src.hasPrefix pos = true) :
    src.byte pos = ch '0' ∧ src.byte (pos + 1) ≠ ch 'i' ∧ src.byte (pos + 1) ≠ ch 'u' ∧
      src.byte (pos + 1) ≠ ch 'f' := by
  rw [Source.hasPrefix, Bool.and_eq_true] at hp
  simp only [Bool.or_eq_true, beq_iff_eq] at hp
  obtain ⟨h0, ((((hb | hb) | hb) | hb) | hb) | hb⟩ := hp
  all_goals
    rw [h0, hb]
    decide

/-- The bytes of a body that no suffix starts with, and the last one: only in a hexadecimal body is
there an `f`, or a letter at the end. -/
theorem NumberToken.body (h : NumberToken src s s') (hend : src.bodyEnd s.pos = s'.pos) :
    (∀ i, s.pos ≤ i → i < s'.pos → src.byte i ≠ ch 'i' ∧ src.byte i ≠ ch 'u' ∧
      (¬ HasHex src s.pos → src.byte i ≠ ch 'f')) ∧
    (¬ HasHex src s.pos → Lexer.isAlpha (src.byte (s'.pos - 1)) = false) := by
  cases hp : src.hasPrefix s.pos with
  | true =>
    have hlt := (h.prefixed hp).1
    rw [hend] at hlt
    have hstop : s'.pos = src.skipWhile (Source.inBase (src.byte (s.pos + 1))) (s.pos + 2) := by
      rw [← hend, Source.bodyEnd, if_pos hp]
    obtain ⟨h0, hi, hu, hf⟩ := prefix_facts hp
    have hdigit : ∀ i, s.pos + 2 ≤ i → i < s'.pos → src.byte i ≠ ch 'i' ∧ src.byte i ≠ ch 'u' ∧
        (¬ HasHex src s.pos →
          src.byte i ≠ ch 'f' ∧ Lexer.isAlpha (src.byte i) = false) := by
      intro i h1 h2
      have hin : Source.inBase (src.byte (s.pos + 1)) (src.byte i) = true :=
        Source.skipWhile_all i h1 (hstop ▸ h2)
      have hfacts := digitFacts_of_prefix hp (src.byte i)
      rw [digitFacts, hin] at hfacts
      simp only [Bool.not_true, Bool.false_or, Bool.and_eq_true, Bool.or_eq_true, bne_iff_ne,
        beq_iff_eq, Bool.not_eq_true'] at hfacts
      obtain ⟨⟨hfi, hfu⟩, hrest⟩ := hfacts
      refine ⟨hfi, hfu, fun hno => ?_⟩
      obtain hx | hrest := hrest
      · exact absurd ⟨h0, hx⟩ hno
      · exact hrest
    refine ⟨fun i h1 h2 => ?_, fun hno => ((hdigit (s'.pos - 1) (by omega) (by omega)).2.2 hno).2⟩
    obtain rfl | rfl | hi2 : i = s.pos ∨ i = s.pos + 1 ∨ s.pos + 2 ≤ i := by omega
    · rw [h0]
      exact ⟨by decide, by decide, fun _ => by decide⟩
    · exact ⟨hi, hu, fun _ => hf⟩
    · obtain ⟨hfi, hfu, hrest⟩ := hdigit i hi2 h2
      exact ⟨hfi, hfu, fun hno => (hrest hno).1⟩
  | false =>
    have hspec := decimalEnd_spec h.digit
    rw [← (h.decimal hp).1, hend] at hspec
    refine ⟨fun i h1 h2 => ?_, fun _ => hspec.last⟩
    have hbyte := hspec.bytes i h1 h2
    have := all_bytes (P := fun c => !isDecimalByte c || (c != ch 'i' && c != ch 'u' && c != ch 'f'))
      (by decide +kernel) (src.byte i)
    rw [hbyte] at this
    simp only [Bool.not_true, Bool.false_or, Bool.and_eq_true, bne_iff_ne] at this
    exact ⟨this.1.1, this.1.2, fun _ => this.2⟩

/-- Every suffix has an `i` or a `u`, or is one of the two that hexadecimal digits can spell. -/
theorem kSuffixes_letters : ∀ entry ∈ kSuffixes, 'i' ∈ entry.1.toList ∨ 'u' ∈ entry.1.toList ∨
    'f' ∈ entry.1.toList ∧ (entry.1 = "f32" ∨ entry.1 = "f64") := by
  decide

theorem ofByte_injective {b c : UInt8} (h : Char.ofNat b.toNat = Char.ofNat c.toNat) : b = c := by
  have hback : ∀ d : UInt8, (Char.ofNat d.toNat).toNat = d.toNat := by
    intro d
    have := all_bytes (P := fun d => (Char.ofNat d.toNat).toNat == d.toNat) (by decide +kernel) d
    exact beq_iff_eq.1 this
  rw [← UInt8.toNat_inj, ← hback b, ← hback c, h]

/-- **How suffixes are read.** The checker finds the suffix that the lexer wrote, unless the literal is
hexadecimal, has none, and ends in digits that look like one. -/
theorem classifySuffix_iff {expected : Suffix} (h : NumberToken src s s')
    (hwritten : Written width src s s' expected) :
    classifySuffix width (src.spelling s.pos s'.pos) = expected ↔ ¬ TakesDigits src s s' := by
  obtain ⟨hlt, hle, hsize⟩ := h.bounds
  have hchars : charsOf (src.slice s.pos s'.pos) = charsOf (src.slice s.pos (src.bodyEnd s.pos)) ++
      charsOf (src.slice (src.bodyEnd s.pos) s'.pos) := by
    rw [← charsOf_append, Source.slice_append (Nat.le_of_lt hlt) hle]
  have hbody : charsOf (src.slice s.pos (src.bodyEnd s.pos)) ≠ [] := by
    rw [Source.slice_cons hlt (Nat.le_trans hle hsize)]
    exact List.cons_ne_nil _ _
  cases hwritten with
  | known text tag isFloat hmem hspell =>
    obtain ⟨hne, tag', hknown, htag⟩ := supportedSuffixes_mem hmem
    have htext : charsOf (src.slice (src.bodyEnd s.pos) s'.pos) = text.toList := by
      rw [← hspell, Source.spelling, String.toList_ofList]
    have hfits : Fits (charsOf (src.slice s.pos s'.pos)) (text, tag', isFloat) := by
      rw [Fits, hchars, htext]
      refine ⟨?_, List.suffix_append _ _⟩
      have hpos := List.length_pos_iff.2 hbody
      show text.toList.length < _
      rw [List.length_append]
      omega
    rw [Source.spelling, classifySuffix_known hknown hfits, htag]
    refine iff_of_true rfl ?_
    rintro ⟨-, -, hend, -⟩
    rw [hend, Source.slice_self] at htext
    exact hne htext.symm
  | absent hspell =>
    have hend : src.bodyEnd s.pos = s'.pos := by
      by_contra hne
      have hlt : src.bodyEnd s.pos < s'.pos := by omega
      rw [Source.spelling, Source.slice_cons hlt hsize] at hspell
      exact absurd (congrArg String.toList hspell) (by rw [String.toList_ofList]; exact List.cons_ne_nil _ _)
    rw [hend] at hlt
    obtain ⟨hbytes, hlast⟩ := h.body hend
    have hno : ∀ {c : Char} {b : UInt8}, c = Char.ofNat b.toNat →
        (∀ i, s.pos ≤ i → i < s'.pos → src.byte i ≠ b) →
        c ∉ charsOf (src.slice s.pos s'.pos) := by
      intro c b hc hb hmem
      obtain ⟨i, h1, h2, h3⟩ := mem_charsOf_slice hsize hmem
      exact hb i h1 h2 (ofByte_injective (h3.symm.trans hc))
    rw [Source.spelling, classifySuffix_absent, getLast?_charsOf_slice hlt hsize]
    constructor
    · rintro ⟨hfits, halpha⟩ ⟨h0, hx, -, htail⟩
      have hlong : ∀ {text : String}, text.toList.length = 3 → text.toList.head? ≠ some '0' →
          text.toList <:+ charsOf (src.slice s.pos s'.pos) →
          text.toList.length < (charsOf (src.slice s.pos s'.pos)).length := by
        intro text hlen hhead hsuffix
        refine Nat.lt_of_le_of_ne hsuffix.length_le fun heq => hhead ?_
        rw [hsuffix.eq_of_length heq, Source.slice_cons hlt hsize, h0]
        show some (Char.ofNat (ch '0').toNat) = some '0'
        decide
      obtain hletter | hf | hf := htail
      · have := halpha _ rfl
        rw [isAlpha_ofByte, hletter] at this
        cases this
      · exact hfits ("f32", .f32, true) (by decide) ⟨hlong (by decide) (by decide) hf, hf⟩
      · exact hfits ("f64", .f64, true) (by decide) ⟨hlong (by decide) (by decide) hf, hf⟩
    · intro htakes
      refine ⟨fun entry hentry hfits => ?_, fun c hc => ?_⟩
      · have hsub : ∀ {c : Char}, c ∈ entry.1.toList → c ∈ charsOf (src.slice s.pos s'.pos) :=
          fun hc => hfits.2.subset hc
        obtain hi | hu | ⟨hf, htext⟩ := kSuffixes_letters entry hentry
        · exact hno (by decide) (fun i h1 h2 => (hbytes i h1 h2).1) (hsub hi)
        · exact hno (by decide) (fun i h1 h2 => (hbytes i h1 h2).2.1) (hsub hu)
        · by_cases hx : HasHex src s.pos
          · refine htakes ⟨hx.1, hx.2, hend, .inr ?_⟩
            obtain htext | htext := htext
            · exact .inl (htext ▸ hfits.2)
            · exact .inr (htext ▸ hfits.2)
          · exact hno (by decide) (fun i h1 h2 => (hbytes i h1 h2).2.2 hx) (hsub hf)
      · rw [Option.some.injEq] at hc
        rw [← hc, isAlpha_ofByte]
        by_cases hx : HasHex src s.pos
        · rw [← Bool.not_eq_true]
          exact fun hletter => htakes ⟨hx.1, hx.2, hend, .inl hletter⟩
        · exact hlast hx

/-- `42i32` -/
def suffixed : Source := ⟨bytesOf "42i32", 0⟩

theorem classifySuffix_suffixed :
    classifySuffix .w64 (suffixed.spelling 0 5) = .known .i32 false ↔
      ¬ TakesDigits suffixed .start (suffixed.lexNumber .start) :=
  @classifySuffix_iff suffixed .start (suffixed.lexNumber .start) .w64 (.known .i32 false)
    ⟨by decide, rfl, .integer, by decide, .inl rfl⟩
    (.known "i32" .i32 false (by decide) (by decide))

/-- `0xFF` -/
def hexadecimal : Source := ⟨bytesOf "0xFF", 0⟩

/-- What the checker finds for every number token. -/
def SuffixesRead : Prop :=
  ∀ width src s s' expected, NumberToken src s s' → Written width src s s' expected →
    classifySuffix width (src.spelling s.pos s'.pos) = expected

/-- The prefix and the digits are reported as an unsupported suffix. -/
theorem hexadecimal_not_read : ¬ SuffixesRead ∧
    classifySuffix .w64 (hexadecimal.spelling 0 4) = .unsupported "xFF" := by
  refine ⟨fun h => ?_, by decide⟩
  have hread := h .w64 hexadecimal .start (hexadecimal.lexNumber .start) .absent
    ⟨by decide, rfl, .integer, by decide, .inl rfl⟩ (.absent (by decide))
  exact absurd hread (by decide)

end Alcy.Analyzer.Bodies
