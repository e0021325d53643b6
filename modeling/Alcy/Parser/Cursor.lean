import Alcy.Ast
import Alcy.Lexer.Token

/-! # The parser's cursor and its recovery

`src/parser/parser.h` and the first part of `parser.cc`. A parse function that
returns a null pointer fails and keeps what it did to the state. Three things the
source never checks are faults here, so that a run without a fault is a run that
did none of them: reading or leaving `tokens_` past its end, a loop iteration
that goes round without a token, and a descent back into a production that has
not consumed one. The fourth fault is the model's own fuel. -/
namespace Alcy.Parser
open Alcy.Ast Alcy.Diag
open Alcy.Lexer (Token TokenKind)

def kParserUnexpectedToken : Nat := 4100
def kParserReservedWord : Nat := 4101

def isReserved : TokenKind → Bool
  | .async | .await | .union | .register | .comp | .externKw | .unsafeKw | .for | .in | .where
  | .dyn => true
  | _ => false

def isCompoundAssign : TokenKind → Bool
  | .plusEq | .minusEq | .starEq | .slashEq | .percentEq | .starStarEq | .ampEq | .pipeEq
  | .caretEq | .lessLessEq | .greaterGreaterEq => true
  | _ => false

def compoundOp : TokenKind → BinaryOp
  | .plusEq => .add
  | .minusEq => .sub
  | .starEq => .mul
  | .slashEq => .div
  | .percentEq => .mod
  | .starStarEq => .pow
  | .ampEq => .bitAnd
  | .pipeEq => .bitOr
  | .caretEq => .bitXor
  | .lessLessEq => .shl
  | _ => .shr

def isPathSegment : TokenKind → Bool
  | .ident | .self | .super | .package | .selfType => true
  | _ => false

/-- What the parser reads: `tokens_`, `bytes_` and `file_`. -/
structure Input where
  tokens : List Token
  bytes : List UInt8
  file : Nat
  deriving Repr

/-- What it changes. -/
structure PState where
  pos : Nat
  previousSpan : Span
  bankedGt : Nat
  allowStructLit : Bool
  bag : DiagBag
  deriving Repr

inductive Fault where
  | outOfBounds
  | pastEof
  | stuck
  | outOfFuel
  deriving Repr, DecidableEq

/-- A parse function: no value is a null pointer. -/
def PM (α : Type) : Type := PState → Except Fault (Option α × PState)

instance : Monad PM where
  pure a := fun s => .ok (some a, s)
  bind p f := fun s =>
    match p s with
    | .error e => .error e
    | .ok (none, s) => .ok (none, s)
    | .ok (some a, s) => f a s

namespace PM

def fail {α : Type} : PM α := fun s => .ok (none, s)

def fault {α : Type} (e : Fault) : PM α := fun _ => .error e

/-- The null check of a caller that goes on after it. -/
def attempt {α : Type} (p : PM α) : PM (Option α) := fun s =>
  match p s with
  | .error e => .error e
  | .ok (r, s) => .ok (some r, s)

/-- `const usize mark = pos_;` -/
def here : PM Nat := fun s => .ok (some s.pos, s)

def modify (f : PState → PState) : PM Unit := fun s => .ok (some (), f s)

def bankedGt : PM Nat := fun s => .ok (some s.bankedGt, s)

def allowStructLit : PM Bool := fun s => .ok (some s.allowStructLit, s)

/-- Runs with `allow_struct_lit_` off and puts the old value back, on failure too. -/
def withoutStructLit {α : Type} (p : PM α) : PM α := fun s =>
  match p { s with allowStructLit := false } with
  | .error e => .error e
  | .ok (r, s') => .ok (r, { s' with allowStructLit := s.allowStructLit })

def report (span : Span) (message : String) : PM Unit :=
  modify fun s => { s with bag := emit s.bag .error kParserUnexpectedToken span message }

/-- A loop. The step says whether the loop goes round again; doing so at the
position where the step began is a fault. -/
def loopM {α : Type} (step : α → PM (α × Bool)) : Nat → α → PM α
  | 0, _ => fault .outOfFuel
  | fuel + 1, acc => fun s =>
    match step acc s with
    | .error e => .error e
    | .ok (none, s') => .ok (none, s')
    | .ok (some (acc, false), s') => .ok (some acc, s')
    | .ok (some (acc, true), s') =>
      if s'.pos ≤ s.pos then .error .stuck else loopM step fuel acc s'

end PM

open PM

namespace Input

variable (inp : Input)

/-- `bytes_.substr`, as text: one character a byte. Spans point into the bytes. -/
def text (span : Span) : String :=
  String.ofList (((inp.bytes.drop span.offset).take span.length).map fun b => Char.ofNat b.toNat)

/-- More iterations than any loop makes. -/
def loopFuel : Nat := inp.tokens.length + 1

/-! ## The cursor -/

/-- `skip_insignificant` over what is left of the tokens. -/
def skipFrom : List Token → PState → PState
  | [], s => s
  | t :: rest, s =>
    if t.kind = .error ∨ t.kind = .docComment then skipFrom rest { s with pos := s.pos + 1 }
    else if isReserved t.kind then
      skipFrom rest { s with
        pos := s.pos + 1
        bag := emit s.bag .error kParserReservedWord t.span
          ("\x60" ++ inp.text t.span ++ "\x60 is reserved for future use") }
    else s

def skipInsignificant (s : PState) : PState := inp.skipFrom (inp.tokens.drop s.pos) s

/-- `tokens_[pos_]` -/
def peek : PM Token := fun s =>
  match inp.tokens[s.pos]? with
  | none => .error .outOfBounds
  | some t => .ok (some t, s)

def atEnd : PM Bool := fun s =>
  match inp.tokens[s.pos]? with
  | none => .ok (some true, s)
  | some t => .ok (some (t.kind == .eof), s)

/-- Consuming the final token is a fault: nothing may follow it. -/
def advance : PM Unit := fun s =>
  match inp.tokens[s.pos]? with
  | none => .error .outOfBounds
  | some t =>
    if t.kind = .eof then .error .pastEof
    else .ok (some (), inp.skipInsignificant { s with pos := s.pos + 1, previousSpan := t.span })

def check (kind : TokenKind) : PM Bool := do
  if ← inp.atEnd then return false
  else return (← inp.peek).kind == kind

/-- `match` -/
def accept (kind : TokenKind) : PM Bool := do
  if ← inp.check kind then
    inp.advance
    return true
  else return false

/-- `span_from`: the end is computed in `u32`. -/
def spanFrom (mark : Nat) : PM Span := fun s =>
  match inp.tokens[mark]? with
  | none => .error .outOfBounds
  | some t =>
    let start := t.span.offset
    let stop := (s.previousSpan.offset + s.previousSpan.length) % 2 ^ 32
    .ok (some (if stop < start then ⟨inp.file, start, 0⟩ else ⟨inp.file, start, stop - start⟩), s)

/-- The error of `expect`, and of every place that names what it wanted. -/
def reportExpected (what : String) : PM Unit := do
  if ← inp.atEnd then
    report (← inp.spanFrom (← here)) ("expected " ++ what ++ ", found end of file")
  else
    let t ← inp.peek
    report t.span ("expected " ++ what ++ ", found \x60" ++ inp.text t.span ++ "\x60")

/-- `expect`, where the caller returns null when it returns false. -/
def expect (kind : TokenKind) (what : String) : PM Unit := do
  if ← inp.accept kind then return ()
  else
    inp.reportExpected what
    fail

/-! ## Recovery and lookahead -/

def isOpener : TokenKind → Bool
  | .lBrace | .lBracket | .lParen => true
  | _ => false

def isCloser : TokenKind → Bool
  | .rBrace | .rBracket | .rParen => true
  | _ => false

/-- The skipping loop of `synchronize`, with its nesting depth. -/
def synchronizeLoop : PM Nat :=
  loopM (fun depth => do
    if ← inp.atEnd then return (depth, false)
    else
      let kind := (← inp.peek).kind
      if depth == 0 && (kind == .semicolon || kind == .comma || isCloser kind) then
        return (depth, false)
      else
        inp.advance
        return (if isOpener kind then depth + 1
          else if isCloser kind && depth > 0 then depth - 1 else depth, true))
    inp.loopFuel 0

/-- `synchronize`: a boundary token that stopped it at once is consumed. -/
def synchronize : PM Unit := do
  let start ← here
  let _ ← inp.synchronizeLoop
  let stop ← here
  if ← inp.atEnd then return ()
  else
    let kind := (← inp.peek).kind
    if stop == start then inp.advance
    else if kind == .semicolon || kind == .comma then inp.advance
    else return ()

/-- A construct of a recovering loop: null makes the loop synchronize. -/
def orSynchronize {α : Type} (p : PM α) : PM (Option α) := do
  match ← attempt p with
  | some a => return some a
  | none =>
    inp.synchronize
    return none

inductive StmtLead where
  | none
  | decl
  | reassign
  deriving Repr, DecidableEq

/-- `scan_lead` over what is left of the tokens, at a nesting depth. -/
def scanLeadFrom : List Token → Nat → StmtLead
  | [], _ => .none
  | t :: rest, depth =>
    let kind := t.kind
    if kind = .error ∨ kind = .docComment ∨ isReserved kind = true then scanLeadFrom rest depth
    else if depth = 0 ∧ kind = .colonEq then .decl
    else if depth = 0 ∧ (kind = .eq ∨ isCompoundAssign kind = true) then .reassign
    else if depth = 0 ∧ (kind = .semicolon ∨ kind = .rBrace ∨ kind = .lBrace ∨ kind = .eof) then
      .none
    else if isOpener kind then scanLeadFrom rest (depth + 1)
    else if isCloser kind && depth > 0 then scanLeadFrom rest (depth - 1)
    else scanLeadFrom rest depth

def scanLead : PM StmtLead := fun s => .ok (some (scanLeadFrom (inp.tokens.drop s.pos) 0), s)

/-! ## Lists -/

/-- `if (!closed) while (true) { item; if (!match(Comma)) break; if (closed) break; }` -/
def commaList {α : Type} (closed : PM Bool) (item : PM α) : PM (List α) := do
  if ← closed then return []
  else
    loopM (fun acc => do
      let x ← item
      if ← inp.accept .comma then
        if ← closed then return (acc ++ [x], false)
        else return (acc ++ [x], true)
      else return (acc ++ [x], false)) inp.loopFuel []

/-- `while (!check(close) && !at_end()) { item; if (!match(Comma)) break; }` -/
def commaRest {α : Type} (close : TokenKind) (item : PM α) (init : List α) : PM (List α) :=
  loopM (fun acc => do
    if (← inp.check close) || (← inp.atEnd) then return (acc, false)
    else
      let x ← item
      if ← inp.accept .comma then return (acc ++ [x], true)
      else return (acc ++ [x], false)) inp.loopFuel init

/-- `while (!check(RBrace) && !at_end())` around constructs that recover; stray
semicolons are skipped. -/
def recoverList {α : Type} (item : PM α) : PM (List α) :=
  loopM (fun acc => do
    if (← inp.check .rBrace) || (← inp.atEnd) then return (acc, false)
    else if ← inp.accept .semicolon then return (acc, true)
    else
      match ← inp.orSynchronize item with
      | none => return (acc, true)
      | some x => return (acc ++ [x], true)) inp.loopFuel []

end Input
end Alcy.Parser
