import Alcy.Lexer.Cursor

/-! # The shape of an input

Comments as a grammar, and `cutOff`: a reader that looks at the bytes one at a
time and finds whether the input stops right after the backslash of an escape.
Stretches that leave its mode alone are what most of the lexer moves over. -/
namespace Alcy.Lexer
open Source (inBase isBlank isDigitOrUnderscore scalarWidth symbolKind)

/-! ## Comments -/

/-- `text` closes `depth` open block comments, the last one at its very end. -/
inductive Nested : Nat → List UInt8 → Prop where
  | done : Nested 0 []
  | opens {depth : Nat} {text : List UInt8} : Nested (depth + 2) text →
      Nested (depth + 1) (ch '/' :: ch '*' :: text)
  | closes {depth : Nat} {text : List UInt8} : Nested depth text →
      Nested (depth + 1) (ch '*' :: ch '/' :: text)
  | byte {depth : Nat} {c : UInt8} {text : List UInt8} :
      ¬ (c = ch '/' ∧ text.headD 0 = ch '*') → ¬ (c = ch '*' ∧ text.headD 0 = ch '/') →
      Nested (depth + 1) text → Nested (depth + 1) (c :: text)

/-- The bytes of one comment: a line comment without its newline, or a properly
nested block comment. -/
inductive Comment : List UInt8 → Prop where
  | line {text : List UInt8} : (∀ c ∈ text, c ≠ ch '\n') → Comment (ch '/' :: ch '/' :: text)
  | block {text : List UInt8} : Nested 1 text → Comment (ch '/' :: ch '*' :: text)

def isSpace (c : UInt8) : Bool := isBlank c || c == ch '\n'

/-! ## Inputs cut off in an escape -/

inductive Mode where
  | code
  | line
  | block (depth : Nat)
  | literal (quote : UInt8)
  deriving Repr, DecidableEq

/-- Whether the bytes end with the backslash of an escape, read from `mode` after
leaving out `skip` bytes. Outside comments and literals an invalid scalar hides
the bytes its lead announces; a literal ends at its quote or at a newline. -/
def cutOff : Nat → Mode → List UInt8 → Bool
  | _, _, [] => false
  | skip + 1, mode, _ :: rest => cutOff skip mode rest
  | 0, .code, c :: rest =>
    if c == ch '/' && rest.headD 0 == ch '/' then cutOff 0 .line rest
    else if c == ch '/' && rest.headD 0 == ch '*' then cutOff 1 (.block 1) rest
    else if c == ch '"' || c == ch '\'' then cutOff 0 (.literal c) rest
    else cutOff (scalarWidth c - 1) .code rest
  | 0, .line, c :: rest => cutOff 0 (if c == ch '\n' then .code else .line) rest
  | 0, .block depth, c :: rest =>
    if c == ch '/' && rest.headD 0 == ch '*' then cutOff 1 (.block (depth + 1)) rest
    else if c == ch '*' && rest.headD 0 == ch '/' then
      cutOff 1 (if depth = 1 then .code else .block (depth - 1)) rest
    else cutOff 0 (.block depth) rest
  | 0, .literal quote, c :: rest =>
    if c == quote || c == ch '\n' then cutOff 0 .code rest
    else if c == ch '\\' then
      match rest with
      | [] => true
      | n :: _ => cutOff 1 (if n == ch '\n' then .code else .literal quote) rest
    else cutOff 0 (.literal quote) rest

/-- The input ends right after the backslash of an escape in a literal. -/
def Source.endsInEscape (src : Source) : Bool := cutOff 0 .code src.bytes

/-- `cutOff` from a position of the input. -/
def Source.cut (src : Source) (mode : Mode) (pos : Nat) : Bool :=
  cutOff 0 mode (src.bytes.drop pos)

variable {src : Source}

theorem cutOff_skip (mode : Mode) : ∀ (skip : Nat) (bytes : List UInt8),
    cutOff skip mode bytes = cutOff 0 mode (bytes.drop skip)
  | 0, _ => rfl
  | _ + 1, [] => by simp [cutOff]
  | skip + 1, _ :: rest => by
    rw [cutOff, List.drop_succ_cons]
    exact cutOff_skip mode skip rest

theorem cutOff_skip_drop (mode : Mode) (skip pos : Nat) :
    cutOff skip mode (src.bytes.drop pos) = src.cut mode (pos + skip) := by
  rw [cutOff_skip, List.drop_drop, Source.cut]

theorem cut_of_le {mode : Mode} {pos : Nat} (h : src.size ≤ pos) : src.cut mode pos = false := by
  rw [Source.cut, List.drop_eq_nil_of_le h]
  unfold cutOff
  rfl

theorem scalarWidth_pos (c : UInt8) : 1 ≤ scalarWidth c := by
  unfold scalarWidth
  split <;> [omega; split <;> [omega; split <;> omega]]

theorem cut_code {pos : Nat} (h : pos < src.size) :
    src.cut .code pos =
      if src.byte pos == ch '/' && src.byte (pos + 1) == ch '/' then src.cut .line (pos + 1)
      else if src.byte pos == ch '/' && src.byte (pos + 1) == ch '*' then
        src.cut (.block 1) (pos + 2)
      else if src.byte pos == ch '"' || src.byte pos == ch '\'' then
        src.cut (.literal (src.byte pos)) (pos + 1)
      else src.cut .code (pos + scalarWidth (src.byte pos)) := by
  have hw := scalarWidth_pos (src.byte pos)
  rw [Source.cut, Source.drop_of_lt h]
  simp only [cutOff, Source.headD_drop, cutOff_skip_drop]
  rw [show pos + 1 + 1 = pos + 2 from rfl, show pos + 1 + (scalarWidth (src.byte pos) - 1) =
    pos + scalarWidth (src.byte pos) by omega]

theorem cut_line {pos : Nat} (h : pos < src.size) :
    src.cut .line pos = src.cut (if src.byte pos == ch '\n' then .code else .line) (pos + 1) := by
  rw [Source.cut, Source.drop_of_lt h]
  rfl

theorem cut_block {depth pos : Nat} (h : pos < src.size) :
    src.cut (.block depth) pos =
      if src.byte pos == ch '/' && src.byte (pos + 1) == ch '*' then
        src.cut (.block (depth + 1)) (pos + 2)
      else if src.byte pos == ch '*' && src.byte (pos + 1) == ch '/' then
        src.cut (if depth = 1 then .code else .block (depth - 1)) (pos + 2)
      else src.cut (.block depth) (pos + 1) := by
  rw [Source.cut, Source.drop_of_lt h]
  simp only [cutOff, Source.headD_drop, cutOff_skip_drop]

theorem cut_literal {quote : UInt8} {pos : Nat} (h : pos < src.size) :
    src.cut (.literal quote) pos =
      if src.byte pos == quote || src.byte pos == ch '\n' then src.cut .code (pos + 1)
      else if src.byte pos == ch '\\' then
        if src.size ≤ pos + 1 then true
        else src.cut (if src.byte (pos + 1) == ch '\n' then .code else .literal quote) (pos + 2)
      else src.cut (.literal quote) (pos + 1) := by
  rw [Source.cut, Source.drop_of_lt h]
  unfold cutOff
  by_cases h1 : src.size ≤ pos + 1
  · simp [h1, List.drop_eq_nil_of_le (show src.bytes.length ≤ pos + 1 from h1), Source.cut]
  · rw [Source.drop_of_lt (Nat.lt_of_not_le h1)]
    simp only [h1, if_false, Source.cut, cutOff_skip, List.drop_succ_cons, List.drop_zero,
      Source.drop_of_lt (Nat.lt_of_not_le h1)]

/-! ## Bytes that change nothing -/

theorem all_bytes {P : UInt8 → Bool} (h : ∀ n : Fin 256, P (UInt8.ofFin n) = true) (c : UInt8) :
    P c = true := h c.toFin

/-- An ASCII byte that starts no comment and no literal. -/
def plain (c : UInt8) : Bool :=
  c != 0 && c != ch '/' && c != ch '"' && c != ch '\'' && scalarWidth c == 1

theorem plain_of_alnum {c : UInt8} (h : isAlnumOrUnderscore c = true) : plain c = true := by
  have := all_bytes (P := fun c => !isAlnumOrUnderscore c || plain c) (by decide +kernel) c
  simpa [h] using this

theorem plain_of_digit {c : UInt8} (h : isDigitOrUnderscore c = true) : plain c = true := by
  refine plain_of_alnum ?_
  rw [isDigitOrUnderscore, Bool.or_eq_true] at h
  rw [isAlnumOrUnderscore, Bool.or_eq_true, Bool.or_eq_true]
  exact h.imp .inr id

/-- A hexadecimal digit is a digit or a letter. -/
theorem alnum_of_hex {c : UInt8} (h : isHexDigit c = true) : isAlnumOrUnderscore c = true := by
  simp only [isHexDigit, isAlnumOrUnderscore, isAlpha, Bool.or_eq_true, Bool.and_eq_true,
    decide_eq_true_eq] at h ⊢
  obtain (hdigit | ⟨ha, hf⟩) | ⟨ha, hf⟩ := h
  · exact .inl (.inr hdigit)
  · exact .inl (.inl (.inl ⟨ha, UInt8.le_trans hf (by decide)⟩))
  · exact .inl (.inl (.inr ⟨ha, UInt8.le_trans hf (by decide)⟩))

theorem plain_of_hex {c : UInt8} (h : isHexDigit c = true) : plain c = true :=
  plain_of_alnum (alnum_of_hex h)

theorem plain_of_space {c : UInt8} (h : isSpace c = true) : plain c = true := by
  simp only [isSpace, isBlank, Bool.or_eq_true, beq_iff_eq] at h
  obtain ((rfl | rfl) | rfl) | rfl := h
  · decide
  · decide
  · decide
  · decide

/-- Every digit of a base is a hexadecimal digit or an underscore. -/
theorem plain_of_inBase {base c : UInt8} (h : inBase base c = true) : plain c = true := by
  unfold inBase at h
  split at h
  · next hu => rw [beq_iff_eq.mp hu]; decide
  split at h
  · rw [Bool.or_eq_true, beq_iff_eq, beq_iff_eq] at h
    obtain rfl | rfl := h
    · decide
    · decide
  split at h
  · rw [Bool.and_eq_true, decide_eq_true_eq, decide_eq_true_eq] at h
    refine plain_of_hex ?_
    rw [isHexDigit, isDigit, Bool.or_eq_true, Bool.or_eq_true, Bool.and_eq_true,
      decide_eq_true_eq, decide_eq_true_eq]
    exact .inl (.inl ⟨h.1, UInt8.le_trans h.2 (by decide)⟩)
  · exact plain_of_hex h

theorem plain_ne_zero {c : UInt8} (h : plain c = true) : c ≠ 0 := by
  rintro rfl
  exact absurd h (by decide)

/-- A byte of a symbol that is not its first one, and what the first one is not. -/
def SymbolOk (c n m : UInt8) (r : Option (TokenKind × Nat)) : Prop :=
  ∀ kind width, r = some (kind, width) → c ≠ 0 ∧ c ≠ ch '"' ∧ c ≠ ch '\'' ∧
    scalarWidth c = 1 ∧ 1 ≤ width ∧ (2 ≤ width → plain n = true) ∧
    (3 ≤ width → plain m = true) ∧ width ≤ 3

theorem SymbolOk.ite {c n m : UInt8} {p : Bool} {a b : Option (TokenKind × Nat)}
    (ha : p = true → SymbolOk c n m a) (hb : SymbolOk c n m b) :
    SymbolOk c n m (if p then a else b) := by
  cases p with
  | true => exact ha rfl
  | false => exact hb

theorem symbolKind_ok (c n m : UInt8) : SymbolOk c n m (symbolKind c n m) := by
  unfold symbolKind
  repeat' refine SymbolOk.ite (fun h => ?_) ?_
  all_goals
    rintro kind width hk
    cases hk
  all_goals
    simp only [Bool.and_eq_true, beq_iff_eq] at *
    try casesm* _ ∧ _
    subst_vars
    refine ⟨by decide, by decide, by decide, by decide, by decide, fun h2 => ?_, fun h3 => ?_,
      by decide⟩
    · first | exact absurd h2 (by decide) | decide
    · first | exact absurd h3 (by decide) | decide

/-! ## Moving the cursor -/

/-- From `start` to `stop` the reader of `cutOff` stays in plain code. -/
structure Sync (src : Source) (start stop : Nat) : Prop where
  le : start ≤ stop
  inside : stop ≤ src.size
  cut : src.cut .code start = src.cut .code stop

theorem Sync.trans {a b c : Nat} (h : Sync src a b) (k : Sync src b c) : Sync src a c :=
  ⟨Nat.le_trans h.le k.le, k.inside, h.cut.trans k.cut⟩

theorem Sync.plain {pos : Nat} (h : plain (src.byte pos) = true) : Sync src pos (pos + 1) := by
  have hlt := Source.lt_of_byte_ne (plain_ne_zero h)
  refine ⟨Nat.le_succ _, hlt, ?_⟩
  simp only [Lexer.plain, Bool.and_eq_true, bne_iff_ne, ne_eq, beq_iff_eq] at h
  obtain ⟨⟨⟨⟨-, h1⟩, h2⟩, h3⟩, h4⟩ := h
  rw [cut_code hlt]
  simp [h1, h2, h3, h4]

theorem Sync.step {a b : Nat} (h : Sync src a b) (hb : Lexer.plain (src.byte b) = true) :
    Sync src a (b + 1) := h.trans (.plain hb)

theorem Sync.skipWhile {p : UInt8 → Bool} {a b : Nat} (h : Sync src a b)
    (hp : ∀ c, p c = true → Lexer.plain c = true) : Sync src a (src.skipWhile p b) :=
  Source.skipWhile_induct (P := fun i => Sync src a i) h fun _ _ hi hs => hs.step (hp _ hi)

/-- Where a step may lead: within the input, or one past its end out of a cut-off
escape. -/
def Moves (src : Source) (start stop : Nat) : Prop :=
  Sync src start stop ∨ (stop = src.size + 1 ∧ src.cut .code start = true)

end Alcy.Lexer
