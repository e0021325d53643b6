import Mathlib.Algebra.Group.Nat.Defs

/-! Source spans and the diagnostic bag. Every pass appends to one bag, newest
last, and none takes an entry back; a run is clean when it added no error. -/

namespace Alcy.Diag

/-- `diag::Span`: a file, a byte offset and a byte length. -/
structure Span where
  file : Nat
  offset : Nat
  length : Nat
  deriving Repr, DecidableEq, Inhabited

inductive Severity where
  | note
  | warning
  | error
  deriving Repr, DecidableEq, Inhabited

/-- `diag::Diagnostic`. Secondary labels are left out: no modelled pass attaches one. -/
structure Diagnostic where
  severity : Severity
  code : Nat
  message : String
  primarySpan : Option Span
  deriving Repr, DecidableEq, Inhabited

/-- `diag::DiagBag`, as the list of its entries in emission order. -/
abbrev DiagBag := List Diagnostic

/-- `DiagBag::emit` with a primary span. -/
def emit (bag : DiagBag) (severity : Severity) (code : Nat) (span : Span)
    (message : String) : DiagBag :=
  bag ++ [⟨severity, code, message, some span⟩]

/-- `DiagBag::has_errors`. -/
def hasErrors (bag : DiagBag) : Bool := bag.any fun d => d.severity == .error

@[simp] theorem hasErrors_nil : hasErrors [] = false := rfl

@[simp] theorem hasErrors_append (bag new : DiagBag) :
    hasErrors (bag ++ new) = (hasErrors bag || hasErrors new) := by
  simp [hasErrors]

@[simp] theorem hasErrors_emit (bag : DiagBag) (severity : Severity) (code : Nat) (span : Span)
    (message : String) :
    hasErrors (emit bag severity code span message) = (hasErrors bag || severity == .error) := by
  simp [emit, hasErrors]

end Alcy.Diag
