import Alcy.Lexer.Token

/-! # The lexer

`src/lexer/lexer.cc`. A function reads the source through `peek`, which answers
zero past the end, and moves the cursor; loops that stop at a byte class are
`skipWhile`, the others take fuel and answer `none` when it runs out. -/
namespace Alcy.Lexer
open Alcy.Diag

def kLexerInvalidChar : Nat := 4000
def kLexerUnterminatedString : Nat := 4001
def kLexerUnterminatedChar : Nat := 4002
def kLexerInvalidNumber : Nat := 4003
def kLexerUnterminatedBlockComment : Nat := 4004
def kLexerInvalidEscape : Nat := 4005

/-- The byte of an ASCII character. -/
abbrev ch (c : Char) : UInt8 := c.toUInt8

def isAlpha (c : UInt8) : Bool := (ch 'a' ≤ c && c ≤ ch 'z') || (ch 'A' ≤ c && c ≤ ch 'Z')

def isDigit (c : UInt8) : Bool := ch '0' ≤ c && c ≤ ch '9'

def isAlnumOrUnderscore (c : UInt8) : Bool := isAlpha c || isDigit c || c == ch '_'

def isHexDigit (c : UInt8) : Bool :=
  isDigit c || (ch 'a' ≤ c && c ≤ ch 'f') || (ch 'A' ≤ c && c ≤ ch 'F')

def isValidEscape (c : UInt8) : Bool :=
  c == ch 'n' || c == ch 't' || c == ch 'r' || c == ch '\\' || c == ch '"' || c == ch '\'' ||
    c == ch '0'

/-- The kinds after which a newline becomes a `;`. -/
def insertsSemi : TokenKind → Bool
  | .ident | .underscore | .integer | .float | .string | .char | .true | .false | .rParen
  | .rBracket | .rBrace | .break | .continue | .ret | .question | .self | .selfType | .i8 | .i16
  | .i32 | .i64 | .i128 | .isize | .u8 | .u16 | .u32 | .u64 | .u128 | .usize | .f32 | .f64
  | .bool | .str => true
  | _ => false

/-- The kinds before which it does not. -/
def suppressSemi : TokenKind → Bool
  | .else | .comma | .rParen | .rBracket | .rBrace | .dot | .eof => true
  | _ => false

def kKeywords : List (String × TokenKind) := [
  ("Self", .selfType), ("as", .as), ("async", .async), ("await", .await), ("bool", .bool),
  ("break", .break), ("comp", .comp), ("const", .const), ("continue", .continue), ("dyn", .dyn),
  ("else", .else), ("enum", .enum), ("extern", .externKw), ("f32", .f32), ("f64", .f64),
  ("false", .false), ("fn", .fn), ("for", .for), ("i128", .i128), ("i16", .i16), ("i32", .i32),
  ("i64", .i64), ("i8", .i8), ("if", .if), ("impl", .impl), ("in", .in), ("isize", .isize),
  ("loop", .loop), ("match", .match), ("mod", .mod), ("mut", .mut), ("package", .package),
  ("pub", .pub), ("register", .register), ("ret", .ret), ("self", .self), ("static", .static),
  ("str", .str), ("struct", .struct), ("super", .super), ("true", .true), ("u128", .u128),
  ("u16", .u16), ("u32", .u32), ("u64", .u64), ("u8", .u8), ("union", .union),
  ("unsafe", .unsafeKw), ("use", .use), ("usize", .usize), ("where", .where), ("while", .while)]

def bytesOf (text : String) : List UInt8 := text.toList.map ch

def lookupKeyword (word : List UInt8) : TokenKind :=
  ((kKeywords.find? fun keyword => bytesOf keyword.1 == word).map (·.2)).getD .ident

/-- What a lexer reads: `bytes_` and `file_`. -/
structure Source where
  bytes : List UInt8
  file : Nat
  deriving Repr

/-- What it changes: `pos_`, `last_significant_`, the output and the bag. -/
structure LexState where
  pos : Nat
  lastSignificant : TokenKind
  out : List Token
  bag : DiagBag
  deriving Repr

def LexState.start : LexState := ⟨0, .eof, [], []⟩

def LexState.advance (s : LexState) (count : Nat) : LexState := { s with pos := s.pos + count }

namespace Source

variable (src : Source)

def size : Nat := src.bytes.length

/-- `bytes_[i]`, zero past the end: `peek` at an absolute index. -/
def byte (i : Nat) : UInt8 := src.bytes.getD i 0

def atEnd (pos : Nat) : Bool := src.size ≤ pos

/-- `span_at`: both casts are to `u32`. -/
def spanAt (start length : Nat) : Span := ⟨src.file, start % 2 ^ 32, length % 2 ^ 32⟩

/-- `while (!at_end() && p(peek())) advance();` -/
def skipWhile (p : UInt8 → Bool) (pos : Nat) : Nat :=
  pos + ((src.bytes.drop pos).takeWhile p).length

def slice (start stop : Nat) : List UInt8 := (src.bytes.drop start).take (stop - start)

/-- Appends a token. -/
def push (kind : TokenKind) (start length : Nat) (s : LexState) : LexState :=
  { s with out := s.out ++ [⟨kind, src.spanAt start length⟩] }

/-- Appends a token that newline insertion looks back on. -/
def pushSignificant (kind : TokenKind) (start length : Nat) (s : LexState) : LexState :=
  { src.push kind start length s with lastSignificant := kind }

def emitError (start length code : Nat) (message : String) (s : LexState) : LexState :=
  { src.push .error start length s with
    bag := emit s.bag .error code (src.spanAt start length) message }

/-! ## Trivia -/

/-- The loop over an open block comment: the cursor and the depth it ends with. -/
def blockComment : Nat → Nat → Nat → Option (Nat × Nat)
  | 0, _, _ => none
  | fuel + 1, pos, depth =>
    if src.atEnd pos || depth == 0 then some (pos, depth)
    else if src.byte pos == ch '/' && src.byte (pos + 1) == ch '*' then
      blockComment fuel (pos + 2) (depth + 1)
    else if src.byte pos == ch '*' && src.byte (pos + 1) == ch '/' then
      blockComment fuel (pos + 2) (depth - 1)
    else blockComment fuel (pos + 1) depth

def isBlank (c : UInt8) : Bool := c == ch ' ' || c == ch '\t' || c == ch '\r'

/-- Where `peek_next_kind` stops: past whitespace and comments. -/
def skipAhead : Nat → Nat → Option Nat
  | 0, _ => none
  | fuel + 1, pos =>
    let i := src.skipWhile (fun c => isBlank c || c == ch '\n') pos
    if src.byte i == ch '/' && src.byte (i + 1) == ch '/' then
      skipAhead fuel (src.skipWhile (· != ch '\n') (i + 2))
    else if src.byte i == ch '/' && src.byte (i + 1) == ch '*' then do
      let (i, _) ← src.blockComment (src.size + 1) (i + 2) 1
      skipAhead fuel i
    else some i

def peekNextKind (pos : Nat) : Option TokenKind := do
  let i ← src.skipAhead (src.size + 1) pos
  if src.atEnd i then return .eof
  let c := src.byte i
  if isAlpha c || c == ch '_' then
    let stop := src.skipWhile isAlnumOrUnderscore (i + 1)
    return if src.slice i stop == bytesOf "else" then .else else .ident
  return if c == ch ',' then .comma
    else if c == ch ')' then .rParen
    else if c == ch ']' then .rBracket
    else if c == ch '}' then .rBrace
    else if c == ch '.' then .dot
    else .ident

/-- The newline branch of `skip_trivia`. -/
def newline (s : LexState) : Option LexState :=
  let after := s.advance 1
  if insertsSemi s.lastSignificant then do
    let next ← src.peekNextKind after.pos
    if suppressSemi next then some after
    else some (src.pushSignificant .semicolon s.pos 1 after)
  else some after

/-- The `//` branch: three slashes and no fourth make a doc comment. -/
def lineComment (s : LexState) : LexState :=
  if src.byte (s.pos + 2) == ch '/' && src.byte (s.pos + 3) != ch '/' then
    let stop := src.skipWhile (· != ch '\n') (s.pos + 3)
    src.pushSignificant .docComment s.pos (stop - s.pos) { s with pos := stop }
  else { s with pos := src.skipWhile (· != ch '\n') s.pos }

/-- The `/*` branch. -/
def openComment (s : LexState) : Option LexState := do
  let (stop, depth) ← src.blockComment (src.size + 1) (s.pos + 2) 1
  let after := { s with pos := stop }
  if depth > 0 then
    return src.emitError s.pos (stop - s.pos) kLexerUnterminatedBlockComment
      "unterminated block comment" after
  return after

def skipTrivia : Nat → LexState → Option LexState
  | 0, _ => none
  | fuel + 1, s =>
    if src.atEnd s.pos then some s
    else
      let c := src.byte s.pos
      if isBlank c then skipTrivia fuel (s.advance 1)
      else if c == ch '\n' then (src.newline s).bind (skipTrivia fuel)
      else if c == ch '/' && src.byte (s.pos + 1) == ch '/' then
        skipTrivia fuel (src.lineComment s)
      else if c == ch '/' && src.byte (s.pos + 1) == ch '*' then
        (src.openComment s).bind (skipTrivia fuel)
      else some s

/-! ## Identifiers and numbers -/

def lexIdentifier (s : LexState) : LexState :=
  let stop := src.skipWhile isAlnumOrUnderscore s.pos
  let word := src.slice s.pos stop
  let kind := if word == bytesOf "_" then .underscore else lookupKeyword word
  src.pushSignificant kind s.pos (stop - s.pos) { s with pos := stop }

def invalidNumber (start stop : Nat) (s : LexState) : LexState :=
  src.emitError start (stop - start) kLexerInvalidNumber "invalid number literal"
    { s with pos := stop }

/-- The common tail: a suffix from the first letter or underscore run. -/
def lexSuffix (start pos : Nat) (isFloat : Bool) (s : LexState) : LexState :=
  let stop :=
    if !src.atEnd pos && (isAlpha (src.byte pos) || src.byte pos == ch '_') then
      src.skipWhile isAlnumOrUnderscore (pos + 1)
    else pos
  src.pushSignificant (if isFloat then .float else .integer) start (stop - start)
    { s with pos := stop }

/-- The digits a base prefix allows; the three tests of `in_base`. -/
def inBase (base d : UInt8) : Bool :=
  if d == ch '_' then true
  else if base == ch 'b' || base == ch 'B' then d == ch '0' || d == ch '1'
  else if base == ch 'o' || base == ch 'O' then ch '0' ≤ d && d ≤ ch '7'
  else isHexDigit d

/-- `0b`, `0o` and `0x` literals. -/
def lexPrefixed (s : LexState) : LexState :=
  let base := src.byte (s.pos + 1)
  let body := s.pos + 2
  let stop := src.skipWhile (inBase base) body
  let digits := src.slice body stop
  if digits.all (· == ch '_') then
    src.invalidNumber s.pos (src.skipWhile isAlnumOrUnderscore stop) s
  else if digits.getLast? == some (ch '_') && !isAlpha (src.byte stop) then
    src.invalidNumber s.pos stop s
  else if isDigit (src.byte stop) then
    src.invalidNumber s.pos (src.skipWhile isAlnumOrUnderscore stop) s
  else
    src.lexSuffix s.pos (src.skipWhile isAlnumOrUnderscore stop) false s

def isDigitOrUnderscore (c : UInt8) : Bool := isDigit c || c == ch '_'

/-- Decimal literals: integer part, fraction, exponent. -/
def lexDecimal (s : LexState) : LexState :=
  let whole := src.skipWhile isDigitOrUnderscore s.pos
  let hasFraction := src.byte whole == ch '.' && src.byte (whole + 1) != ch '.'
  let mantissa := if hasFraction then src.skipWhile isDigitOrUnderscore (whole + 1) else whole
  let e := src.byte mantissa
  let sign := src.byte (mantissa + 1)
  let signed := sign == ch '+' || sign == ch '-'
  let hasExponent := (e == ch 'e' || e == ch 'E') &&
    (isDigit sign || (signed && isDigit (src.byte (mantissa + 2))))
  let stop :=
    if hasExponent then
      src.skipWhile isDigitOrUnderscore (if signed then mantissa + 2 else mantissa + 1)
    else mantissa
  if src.byte (stop - 1) == ch '_' && !isAlpha (src.byte stop) then src.invalidNumber s.pos stop s
  else src.lexSuffix s.pos stop (hasFraction || hasExponent) s

def lexNumber (s : LexState) : LexState :=
  let base := src.byte (s.pos + 1)
  if src.byte s.pos == ch '0' && (base == ch 'b' || base == ch 'B' || base == ch 'o' ||
      base == ch 'O' || base == ch 'x' || base == ch 'X') then
    src.lexPrefixed s
  else src.lexDecimal s

/-! ## String and character literals -/

/-- The flags of the literal loops; strings do not read `empty`. -/
structure Scan where
  terminated : Bool
  empty : Bool
  badEscape : Bool
  deriving Repr, DecidableEq

/-- The end of a well-formed `\u{…}` escape whose backslash is at `pos`. -/
def unicodeEscape (pos : Nat) : Option Nat :=
  if src.byte (pos + 2) == ch '\x7b' then
    let stop := src.skipWhile isHexDigit (pos + 3)
    if stop != pos + 3 && src.byte stop == ch '\x7d' then some (stop + 1) else none
  else none

/-- The loop of `lex_string` and `lex_char` after the opening quote. -/
def scanLiteral (quote : UInt8) : Nat → Nat → Scan → Option (Nat × Scan)
  | 0, _, _ => none
  | fuel + 1, pos, f =>
    if src.atEnd pos then some (pos, f)
    else
      let c := src.byte pos
      let n := src.byte (pos + 1)
      if c == quote then some (pos + 1, { f with terminated := true })
      else if c == ch '\n' then some (pos, f)
      else if c == ch '\\' then
        if n == ch '\n' then some (pos, f)
        else if n == ch 'u' then
          match src.unicodeEscape pos with
          | some next => scanLiteral quote fuel next { f with empty := false }
          | none => scanLiteral quote fuel (pos + 2) { f with empty := false, badEscape := true }
        else if !isValidEscape n then
          scanLiteral quote fuel (pos + 2) { f with empty := false, badEscape := true }
        else scanLiteral quote fuel (pos + 2) { f with empty := false }
      else scanLiteral quote fuel (pos + 1) { f with empty := false }

def scanStart : Scan := ⟨false, true, false⟩

def lexString (s : LexState) : Option LexState := do
  let (stop, f) ← src.scanLiteral (ch '"') (src.size + 1) (s.pos + 1) scanStart
  let after := { s with pos := stop }
  let length := stop - s.pos
  return if !f.terminated then
      src.emitError s.pos length kLexerUnterminatedString "unterminated string literal" after
    else if f.badEscape then
      src.emitError s.pos length kLexerInvalidEscape "invalid escape in string literal" after
    else src.pushSignificant .string s.pos length after

def lexChar (s : LexState) : Option LexState := do
  let (stop, f) ← src.scanLiteral (ch '\'') (src.size + 1) (s.pos + 1) scanStart
  let after := { s with pos := stop }
  let length := stop - s.pos
  return if !f.terminated then
      src.emitError s.pos length kLexerUnterminatedChar "unterminated character literal" after
    else if f.empty then
      src.emitError s.pos length kLexerInvalidChar "empty character literal" after
    else if f.badEscape then
      src.emitError s.pos length kLexerInvalidEscape "invalid escape in character literal" after
    else src.pushSignificant .char s.pos length after

/-! ## Symbols -/

/-- The operator or delimiter that starts with `c` before `n` and `m`, with its
width; `none` for an invalid character. -/
def symbolKind (c n m : UInt8) : Option (TokenKind × Nat) :=
  if c == ch '(' then some (.lParen, 1)
  else if c == ch ')' then some (.rParen, 1)
  else if c == ch '\x7b' then some (.lBrace, 1)
  else if c == ch '\x7d' then some (.rBrace, 1)
  else if c == ch '[' then some (.lBracket, 1)
  else if c == ch ']' then some (.rBracket, 1)
  else if c == ch ',' then some (.comma, 1)
  else if c == ch ';' then some (.semicolon, 1)
  else if c == ch '?' then some (.question, 1)
  else if c == ch '#' then some (.hash, 1)
  else if c == ch '~' then some (.tilde, 1)
  else if c == ch '.' then
    if n == ch '.' && m == ch '=' then some (.dotDotEq, 3)
    else if n == ch '.' && m == ch '<' then some (.dotDotLess, 3)
    else if n == ch '.' then some (.dotDot, 2)
    else some (.dot, 1)
  else if c == ch ':' then
    if n == ch ':' then some (.colonColon, 2)
    else if n == ch '=' then some (.colonEq, 2)
    else some (.colon, 1)
  else if c == ch '=' then
    if n == ch '=' then some (.eqEq, 2)
    else if n == ch '>' then some (.fatArrow, 2)
    else some (.eq, 1)
  else if c == ch '!' then if n == ch '=' then some (.bangEq, 2) else some (.bang, 1)
  else if c == ch '>' then
    if n == ch '>' && m == ch '=' then some (.greaterGreaterEq, 3)
    else if n == ch '>' then some (.greaterGreater, 2)
    else if n == ch '=' then some (.greaterEq, 2)
    else some (.greater, 1)
  else if c == ch '<' then
    if n == ch '<' && m == ch '=' then some (.lessLessEq, 3)
    else if n == ch '<' then some (.lessLess, 2)
    else if n == ch '=' then some (.lessEq, 2)
    else some (.less, 1)
  else if c == ch '+' then if n == ch '=' then some (.plusEq, 2) else some (.plus, 1)
  else if c == ch '-' then
    if n == ch '=' then some (.minusEq, 2)
    else if n == ch '>' then some (.arrow, 2)
    else some (.minus, 1)
  else if c == ch '*' then
    if n == ch '*' && m == ch '=' then some (.starStarEq, 3)
    else if n == ch '*' then some (.starStar, 2)
    else if n == ch '=' then some (.starEq, 2)
    else some (.star, 1)
  else if c == ch '/' then if n == ch '=' then some (.slashEq, 2) else some (.slash, 1)
  else if c == ch '%' then if n == ch '=' then some (.percentEq, 2) else some (.percent, 1)
  else if c == ch '&' then
    if n == ch '&' then some (.ampAmp, 2)
    else if n == ch '=' then some (.ampEq, 2)
    else some (.amp, 1)
  else if c == ch '|' then
    if n == ch '|' then some (.pipePipe, 2)
    else if n == ch '=' then some (.pipeEq, 2)
    else some (.pipe, 1)
  else if c == ch '^' then if n == ch '=' then some (.caretEq, 2) else some (.caret, 1)
  else none

/-- How many bytes the lead byte of an invalid scalar announces. -/
def scalarWidth (lead : UInt8) : Nat :=
  if lead &&& 0xE0 == 0xC0 then 2
  else if lead &&& 0xF0 == 0xE0 then 3
  else if lead &&& 0xF8 == 0xF0 then 4
  else 1

/-- A stray scalar, cut at the end of the input. -/
def invalidScalar (s : LexState) : LexState :=
  let width := scalarWidth (src.byte s.pos)
  let scalar := if s.pos + width > src.size then src.size - s.pos else width
  (src.emitError s.pos scalar kLexerInvalidChar "invalid character" s).advance scalar

def lexSymbol (s : LexState) : LexState :=
  match symbolKind (src.byte s.pos) (src.byte (s.pos + 1)) (src.byte (s.pos + 2)) with
  | none => src.invalidScalar s
  | some (kind, width) => src.pushSignificant kind s.pos width (s.advance width)

/-! ## The whole input -/

/-- One token at the cursor: the dispatch in the loop of `tokenize`. -/
def lexToken (s : LexState) : Option LexState :=
  let c := src.byte s.pos
  if c == 0 then
    some ((src.emitError s.pos 1 kLexerInvalidChar "invalid character" s).advance 1)
  else if isAlpha c || c == ch '_' then some (src.lexIdentifier s)
  else if isDigit c then some (src.lexNumber s)
  else if c == ch '"' then src.lexString s
  else if c == ch '\'' then src.lexChar s
  else some (src.lexSymbol s)

/-- The loop of `tokenize`. -/
def lexTokens : Nat → LexState → Option LexState
  | 0, _ => none
  | fuel + 1, s => do
    let s ← src.skipTrivia (src.size + 2) s
    if src.atEnd s.pos then some s
    else (src.lexToken s).bind (lexTokens fuel)

/-- `tokenize`: the tokens and the diagnostics. -/
def tokenize : Option LexState :=
  (src.lexTokens (src.size + 2) .start).map fun s => src.pushSignificant .eof s.pos 0 s

end Source
end Alcy.Lexer
