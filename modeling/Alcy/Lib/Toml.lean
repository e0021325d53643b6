import Mathlib.Data.List.Basic

/-! # Reading TOML

The lines of a TOML 1.0 document that hold nothing, a comment, the header of an array of tables, or
a bare key with a basic string or a decimal integer. What is read here is read as TOML has it, and
other lines are not read. None of these goes over the end of a line.
-/
namespace Alcy.Lib.Toml

abbrev Text := List Char

/-! ## Basic strings -/

/-- `basic-unescaped`: all but the quotation mark, the backslash and the control characters other
than tab. -/
def unescaped (c : Char) : Bool :=
  c == '\t' || (0x20 ≤ c.toNat && c != '"' && c != '\\' && c.toNat != 0x7F)

/-- The escapes of one character. -/
def shortEscape : Char → Option Char
  | '"' => some '"'
  | '\\' => some '\\'
  | 'b' => some '\x08'
  | 'f' => some '\x0c'
  | 'n' => some '\n'
  | 'r' => some '\r'
  | 't' => some '\t'
  | _ => none

def hexDigit (c : Char) : Option Nat :=
  if '0' ≤ c ∧ c ≤ '9' then some (c.toNat - '0'.toNat)
  else if 'a' ≤ c ∧ c ≤ 'f' then some (c.toNat - 'a'.toNat + 10)
  else if 'A' ≤ c ∧ c ≤ 'F' then some (c.toNat - 'A'.toNat + 10)
  else none

/-- The digits of `\u` and `\U`, for a Unicode scalar value. -/
def scalar (digits : Text) : Option Char := do
  let values ← digits.mapM hexDigit
  let code := values.foldl (fun code value => 16 * code + value) 0
  if h : code.isValidChar then some (Char.ofNatAux code h) else none

/-- A character, and what is read behind it. -/
def push (c : Char) (read : Option (Text × Text)) : Option (Text × Text) :=
  read.map fun text => (c :: text.1, text.2)

/-- The text of a basic string behind its opening quotation mark, and what stands behind the closing
one. -/
def readString : Text → Option (Text × Text)
  | [] => none
  | '"' :: rest => some ([], rest)
  | '\\' :: 'u' :: a :: b :: c :: d :: rest =>
    (scalar [a, b, c, d]).bind fun code => push code (readString rest)
  | '\\' :: 'U' :: a :: b :: c :: d :: a' :: b' :: c' :: d' :: rest =>
    (scalar [a, b, c, d, a', b', c', d']).bind fun code => push code (readString rest)
  | '\\' :: c :: rest => (shortEscape c).bind fun code => push code (readString rest)
  | c :: rest => if unescaped c then push c (readString rest) else none

@[simp] theorem readString_quote (rest : Text) : readString ('"' :: rest) = some ([], rest) := by
  rw [readString]

theorem readString_code (a b c d : Char) (rest : Text) :
    readString ('\\' :: 'u' :: a :: b :: c :: d :: rest) =
      (scalar [a, b, c, d]).bind fun code => push code (readString rest) := by
  rw [readString]

theorem readString_short {c code : Char} (h : shortEscape c = some code) (rest : Text) :
    readString ('\\' :: c :: rest) = push code (readString rest) := by
  rw [readString]
  · rw [h, Option.bind_some]
  · intro a b c' d rest' hu _
    subst hu
    cases h
  · intro a b c' d a' b' c'' d' rest' hu _
    subst hu
    cases h

theorem readString_char {c : Char} (hquote : c ≠ '"') (hescape : c ≠ '\\') (rest : Text) :
    readString (c :: rest) = if unescaped c then push c (readString rest) else none := by
  rw [readString]
  · exact hquote
  · exact fun _ _ _ _ _ h => absurd h hescape
  · exact fun _ _ _ _ _ _ _ _ _ h => absurd h hescape
  · exact fun _ _ h => absurd h hescape

/-! ## Lines -/

/-- What a line holds. -/
inductive Entry where
  /-- `[[name]]` -/
  | table (name : Text)
  | string (key value : Text)
  | integer (key : Text) (value : Nat)
  deriving DecidableEq

def blank (c : Char) : Bool := c == ' ' || c == '\t'

def skip (text : Text) : Text := text.dropWhile blank

/-- The rest of a line: blanks, and maybe a comment without control characters. -/
def ends (text : Text) : Bool :=
  match skip text with
  | [] => true
  | c :: comment => c == '#' && comment.all fun c => unescaped c || c == '"' || c == '\\'

/-- A character of a bare key. -/
def bare (c : Char) : Bool := c.isAlphanum || c == '_' || c == '-'

/-- A key, and what stands behind it. -/
def readKey (text : Text) : Option (Text × Text) :=
  if text.takeWhile bare = [] then none
  else some (text.takeWhile bare, skip (text.dropWhile bare))

/-- A decimal integer without a sign: no zero before other digits. -/
def readInteger (text : Text) : Option (Nat × Text) :=
  let digits := text.takeWhile Char.isDigit
  if digits = [] ∨ (digits.head? = some '0' ∧ digits.length ≠ 1) then none
  else some (Nat.ofDigitChars 10 digits 0, text.dropWhile Char.isDigit)

def readValue (key : Text) : Text → Option (Entry × Text)
  | '"' :: rest => (readString rest).map fun text => (.string key text.1, text.2)
  | text => (readInteger text).map fun value => (.integer key value.1, value.2)

/-- `name]]` or `key = value`. -/
def readEntry : Text → Option (Entry × Text)
  | '[' :: '[' :: rest => do
    let (name, rest) ← readKey (skip rest)
    match rest with
    | ']' :: ']' :: rest => some (.table name, rest)
    | _ => none
  | text => do
    let (key, rest) ← readKey text
    match rest with
    | '=' :: rest => readValue key (skip rest)
    | _ => none

/-- What the line holds, if anything. -/
def readLine (line : Text) : Option (List Entry) :=
  if ends line then some []
  else do
    let (entry, rest) ← readEntry (skip line)
    if ends rest then some [entry] else none

def readLines : List Text → Option (List Entry)
  | [] => some []
  | line :: lines => do
    let entries ← readLine line
    let more ← readLines lines
    return entries ++ more

/-- What the document holds. -/
def read (text : Text) : Option (List Entry) := readLines (text.splitOn '\n')

theorem skip_of_not_blank {c : Char} (h : blank c = false) (rest : Text) :
    skip (c :: rest) = c :: rest := by
  rw [skip, List.dropWhile_cons, h]
  rfl

theorem readEntry_bare {c : Char} (h : c ≠ '[') (rest : Text) :
    readEntry (c :: rest) = (readKey (c :: rest)).bind fun text =>
      match text.2 with
      | '=' :: rest => readValue text.1 (skip rest)
      | _ => none := by
  rw [readEntry]
  · rfl
  · exact fun _ heq => h (List.cons.inj heq).1

/-- The key is what stands before a character that is none of a key. -/
theorem readKey_append {key : Text} (hne : key ≠ []) (hkey : ∀ c ∈ key, bare c) {c : Char}
    (hc : bare c = false) (rest : Text) :
    readKey (key ++ c :: rest) = some (key, skip (c :: rest)) := by
  have htake : (key ++ c :: rest).takeWhile bare = key := by
    rw [List.takeWhile_append_of_pos hkey, List.takeWhile_cons, hc]
    exact List.append_nil key
  have hdrop : (key ++ c :: rest).dropWhile bare = c :: rest := by
    rw [List.dropWhile_append_of_pos hkey, List.dropWhile_cons, hc]
    rfl
  rw [readKey, htake, hdrop, if_neg hne]

/-- A key with a basic string. -/
theorem readLine_string {key : Text} (hne : key ≠ []) (hkey : ∀ c ∈ key, bare c) (body : Text) :
    readLine (key ++ ' ' :: '=' :: ' ' :: '"' :: body) = (readString body).bind fun text =>
      if ends text.2 then some [.string key text.1] else none := by
  obtain ⟨c, tail, rfl⟩ := List.exists_cons_of_ne_nil hne
  have hbare := hkey c (List.mem_cons_self ..)
  have hblank : blank c = false := by
    refine Bool.eq_false_iff.2 fun h => ?_
    rcases Bool.or_eq_true_iff.1 h with h | h <;> rw [eq_of_beq h] at hbare <;>
      exact absurd hbare (by decide)
  have hother {d : Char} (hd : bare d = false) : c ≠ d := by
    rintro rfl
    rw [hd] at hbare
    cases hbare
  have hends : ends (c :: tail ++ ' ' :: '=' :: ' ' :: '"' :: body) = false := by
    rw [ends, List.cons_append, skip_of_not_blank hblank]
    have hcomment : (c == '#') = false := beq_false_of_ne (hother (by decide))
    simp only [hcomment, Bool.false_and]
  have hkeyed := readKey_append hne hkey (show bare ' ' = false by decide)
    ('=' :: ' ' :: '"' :: body)
  rw [readLine, hends, List.cons_append, skip_of_not_blank hblank,
    readEntry_bare (hother (by decide)), ← List.cons_append, hkeyed]
  show ((readValue (c :: tail) ('"' :: body)).bind fun value =>
    if ends value.2 then some [value.1] else none) = _
  rw [readValue]
  cases readString body with
  | none => rfl
  | some text => rfl

/-! ## Documents line by line -/

theorem readLines_append (lines lines' : List Text) : readLines (lines ++ lines') =
    (readLines lines).bind fun entries => (readLines lines').map (entries ++ ·) := by
  induction lines with
  | nil => simp [readLines]
  | cons line lines ih =>
    simp only [List.cons_append, readLines, ih]
    cases readLine line with
    | none => rfl
    | some entries =>
      cases readLines lines with
      | none => rfl
      | some more =>
        cases readLines lines' with
        | none => rfl
        | some rest => simp [List.append_assoc]

theorem splitOn_lines {lines : List Text} (h : ∀ line ∈ lines, '\n' ∉ line) :
    (lines.flatMap (· ++ ['\n'])).splitOn '\n' = lines ++ [[]] := by
  induction lines with
  | nil => rfl
  | cons line lines ih =>
    obtain ⟨hline, hlines⟩ := List.forall_mem_cons.1 h
    rw [List.flatMap_cons, List.append_assoc, List.singleton_append,
      List.splitOn_append_cons_self, List.splitOn_eq_singleton hline, ih hlines]
    rfl

/-- A document of lines that end in a newline each. -/
theorem read_lines {lines : List Text} (h : ∀ line ∈ lines, '\n' ∉ line) :
    read (lines.flatMap (· ++ ['\n'])) = readLines lines := by
  have hlast : readLines [[]] = some [] := rfl
  rw [read, splitOn_lines h, readLines_append, hlast]
  cases readLines lines with
  | none => rfl
  | some entries => simp

end Alcy.Lib.Toml
