import Alcy.Diag

/-! Tokens (`src/lexer/token.h`). -/

namespace Alcy.Lexer
open Alcy.Diag (Span)

/-- `TokenKind`, in the source's order; `externKw` and `unsafeKw` are `Extern` and
`Unsafe`. -/
inductive TokenKind where
  -- declarations
  | fn | struct | enum | mod | impl | static | pub | const | mut | use
  -- control flow
  | if | else | loop | while | break | continue | ret | match
  -- paths and casts
  | package | self | super | selfType | as
  -- primitive types
  | i8 | i16 | i32 | i64 | i128 | isize | u8 | u16 | u32 | u64 | u128 | usize | f32 | f64
  | bool | str
  -- reserved words
  | async | await | union | register | comp | externKw | unsafeKw | for | in | where | dyn
  -- literals
  | integer | float | string | char | true | false
  -- operators
  | plus | minus | star | slash | percent | starStar | amp | pipe | caret | tilde
  | lessLess | greaterGreater | plusEq | minusEq | starEq | slashEq | percentEq | starStarEq
  | ampEq | pipeEq | caretEq | lessLessEq | greaterGreaterEq | colonEq | eq | eqEq | bang
  | ampAmp | pipePipe | bangEq | greater | less | greaterEq | lessEq | arrow | fatArrow
  | colon | colonColon | comma | dot | dotDot | dotDotEq | dotDotLess
  -- delimiters
  | lParen | rParen | lBrace | rBrace | lBracket | rBracket | question | semicolon | hash
  | underscore
  | ident
  | docComment | error | eof
  deriving Repr, DecidableEq, Inhabited

/-- A kind and the span it was read from. -/
structure Token where
  kind : TokenKind
  span : Span
  deriving Repr, DecidableEq, Inhabited

end Alcy.Lexer
