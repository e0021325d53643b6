import Alcy.Analyzer.ScopeRule

/-! # How many errors a run adds

A diagnostic bag is only added to, so that a run adds no error when the number of errors stays.
-/
namespace Alcy.Analyzer.Bodies
open Alcy.Ast Alcy.Diag Alcy.Ir Alcy.Analyzer.Types
open Alcy.Lib.Contracts (Keeps bind_ok)

/-- A run whose outcome is known. -/
theorem run_of_toOption {α β : Type} {run : Except Fault (α × BodyState)} {f : α × BodyState → β}
    {b : β} (h : run.toOption.map f = some b) : ∃ a u, run = .ok (a, u) ∧ f (a, u) = b := by
  cases run with
  | error fault => cases h
  | ok r => exact ⟨r.1, r.2, rfl, Option.some.inj h⟩

/-- How many errors a bag has. -/
def errorCount (bag : DiagBag) : Nat := bag.countP fun d => d.severity = .error

theorem errorCount_le {st st' : CheckState} (h : Onward st st') :
    errorCount st.bag ≤ errorCount st'.bag :=
  h.bag.sublist.countP_le

theorem forward_errorCount {α : Type} {m : BodyM α} (h : Keeps forward m) {st st' : BodyState} {a : α}
    (hrun : m st = .ok (a, st')) : errorCount st.check.bag ≤ errorCount st'.check.bag :=
  errorCount_le (h.ends _ _ _ trivial hrun)

theorem report_errorCount {code : Nat} {span : Span} {message : String} {st st' : BodyState}
    {a : Unit} (h : report code span message st = .ok (a, st')) :
    errorCount st.check.bag < errorCount st'.check.bag := by
  cases h
  simp [errorCount, emit]

theorem reject_errorCount {code : Nat} {span : Span} {message : String} {st st' : BodyState}
    {type : TypeIdx} (h : reject code span message st = .ok (type, st')) :
    errorCount st.check.bag < errorCount st'.check.bag := by
  obtain ⟨_, u, hreport, hrest⟩ := bind_ok.1 h
  have hu := report_errorCount hreport
  have hst' := forward_errorCount forwardRule.errorType hrest
  omega

/-- An error is reported in every state. -/
theorem reject_ne {code : Nat} {span : Span} {message : String} {st : BodyState} {type : TypeIdx} :
    reject code span message st ≠ .ok (type, st) := fun h => Nat.lt_irrefl _ (reject_errorCount h)

end Alcy.Analyzer.Bodies
