import Alcy.Analyzer.Reports

/-! # The `?` operator

`check_question` compares the two instantiations argument by argument, success types included. A
`?` follows the error type alone where the success types are equal, or where it is refused anyway.
-/
namespace Alcy.Analyzer.Bodies
open Alcy.Ast Alcy.Diag Alcy.Ir Alcy.Analyzer.Types
open Alcy.Lib.Contracts (bind_ok bind_of_ok)

/-! ## What the error type says -/

/-- Two instantiations of one kind, and with equal error types where there are any. -/
def sameErrors (s : Storage) (scrutinee enclosing : BlessedEntry) : Option Bool :=
  if scrutinee.isResult ≠ enclosing.isResult then some false
  else if scrutinee.isResult then do
    let error ← scrutinee.args[1]?
    let propagated ← enclosing.args[1]?
    typesEqual s error propagated
  else some true

/-- `?` on an operand of that type, as the error types decide. -/
def followError (type : TypeIdx) (expected : Option TypeIdx) (span : Span) : BodyM TypeIdx := do
  match ← blessedFind type with
  | none => reject kAnalyzerBadQuestion span "'?' needs Result or Option"
  | some scrutinee =>
    let st ← get
    match findBlessed st.check.table st.context.fnRet with
    | none => reject kAnalyzerBadQuestion span "'?' needs an enclosing Result or Option function"
    | some enclosing =>
      if ← read (sameErrors · scrutinee enclosing) then
        unifyExpected expected (← read fun _ => scrutinee.args[0]?) span "'?'"
      else reject kAnalyzerBadQuestion span "'?' type does not match the function return type"

/-- Whether the success types of the two are equal. -/
def sameSuccess (s : Storage) (scrutinee enclosing : BlessedEntry) : Option Bool := do
  let success ← scrutinee.args[0]?
  let returned ← enclosing.args[0]?
  typesEqual s success returned

/-- The registry of instantiations: each has the arguments of its kind, and these can be compared. -/
structure Registry (table : Table) : Prop where
  arity : ∀ entry ∈ table.blessed, entry.args.length = blessedArity entry.isResult
  comparable : ∀ entry ∈ table.blessed, ∀ entry' ∈ table.blessed, ∀ a ∈ entry.args,
    ∀ b ∈ entry'.args, (typesEqual table.storage a b).isSome = true

instance (table : Table) : Decidable (Registry table) :=
  decidable_of_iff ((∀ entry ∈ table.blessed, entry.args.length = blessedArity entry.isResult) ∧
    ∀ entry ∈ table.blessed, ∀ entry' ∈ table.blessed, ∀ a ∈ entry.args, ∀ b ∈ entry'.args,
      (typesEqual table.storage a b).isSome = true)
    ⟨fun h => ⟨h.1, h.2⟩, fun h => ⟨h.arity, h.comparable⟩⟩

/-- Where the error types let a `?` pass, the success types are equal too. -/
def SuccessFollows (u : BodyState) (type : TypeIdx) : Prop :=
  ∀ scrutinee ∈ findBlessed u.check.table type,
    ∀ enclosing ∈ findBlessed u.check.table u.context.fnRet,
      sameErrors u.check.table.storage scrutinee enclosing = some true →
        sameSuccess u.check.table.storage scrutinee enclosing = some true

instance (u : BodyState) (type : TypeIdx) : Decidable (SuccessFollows u type) := by
  unfold SuccessFollows
  infer_instance

/-! ## Argument by argument -/

/-- A comparison of all arguments is one of the success types and one of the error types. -/
theorem sameArgs_eq {table : Table} (hr : Registry table) {scrutinee enclosing : BlessedEntry}
    (hs : scrutinee ∈ table.blessed) (he : enclosing ∈ table.blessed) :
    ∃ success errors, sameErrors table.storage scrutinee enclosing = some errors ∧
      sameArgs table.storage scrutinee enclosing = some (success && errors) ∧
      (errors = true → sameSuccess table.storage scrutinee enclosing = some success) := by
  have hsArity := hr.arity _ hs
  have heArity := hr.arity _ he
  have hcompare := hr.comparable _ hs _ he
  by_cases hkind : scrutinee.isResult = enclosing.isResult
  · rw [hkind] at hsArity
    have hlength : scrutinee.args.length = enclosing.args.length := hsArity.trans heArity.symm
    cases hresult : enclosing.isResult with
    | true =>
      rw [hresult] at hsArity heArity
      obtain ⟨a, b, hab⟩ := List.length_eq_two.1 hsArity
      obtain ⟨a', b', hab'⟩ := List.length_eq_two.1 heArity
      obtain ⟨success, hsuccess⟩ := Option.isSome_iff_exists.1
        (hcompare a (by simp [hab]) a' (by simp [hab']))
      obtain ⟨errors, herrors⟩ := Option.isSome_iff_exists.1
        (hcompare b (by simp [hab]) b' (by simp [hab']))
      refine ⟨success, errors, ?_, ?_, fun _ => ?_⟩
      · simp [sameErrors, hkind, hresult, hab, hab', herrors]
      · cases success <;> cases errors <;>
          simp [sameArgs, hkind, hab, hab', List.allM, hsuccess, herrors]
      · simp [sameSuccess, hab, hab', hsuccess]
    | false =>
      rw [hresult] at hsArity heArity
      obtain ⟨a, ha⟩ := List.length_eq_one_iff.1 hsArity
      obtain ⟨a', ha'⟩ := List.length_eq_one_iff.1 heArity
      obtain ⟨success, hsuccess⟩ := Option.isSome_iff_exists.1
        (hcompare a (by simp [ha]) a' (by simp [ha']))
      refine ⟨success, true, ?_, ?_, fun _ => ?_⟩
      · simp [sameErrors, hkind, hresult]
      · cases success <;> simp [sameArgs, hkind, ha, ha', List.allM, hsuccess]
      · simp [sameSuccess, ha, ha', hsuccess]
  · refine ⟨false, false, ?_, ?_, fun h => absurd h Bool.false_ne_true⟩
    · rw [sameErrors, if_pos hkind]
    · rw [sameArgs, if_pos (.inl hkind)]
      rfl

theorem findBlessed_mem {table : Table} {idx : TypeIdx} {entry : BlessedEntry}
    (h : findBlessed table idx = some entry) : entry ∈ table.blessed :=
  List.mem_of_find?_eq_some h

theorem blessedFind_run (idx : TypeIdx) (st : BodyState) :
    blessedFind idx st = .ok (findBlessed st.check.table idx, st) := rfl

theorem read_run {α : Type} {f : Storage → Option α} {a : α} {st : BodyState}
    (h : f st.check.table.storage = some a) : read f st = .ok (a, st) := by
  unfold read check
  dsimp only
  rw [h]
  rfl

/-- Both instantiations are known. -/
structure Asked (u : BodyState) (type : TypeIdx) (scrutinee enclosing : BlessedEntry)
    (success : TypeIdx) : Prop where
  operand : findBlessed u.check.table type = some scrutinee
  function : findBlessed u.check.table u.context.fnRet = some enclosing
  first : scrutinee.args[0]? = some success

section

variable {inner : Operand} {st u : BodyState} {type success : TypeIdx}
  {scrutinee enclosing : BlessedEntry} {expected : Option TypeIdx} {span : Span}

/-- The end of both programs. -/
def answer (same : Bool) (success : TypeIdx) (expected : Option TypeIdx) (span : Span) :
    BodyM TypeIdx :=
  if same then unifyExpected expected success span "'?'"
  else reject kAnalyzerBadQuestion span "'?' type does not match the function return type"

theorem checkQuestion_asked (h : inner.check none st = .ok (type, u))
    (ha : Asked u type scrutinee enclosing success) {same : Bool}
    (hsame : sameArgs u.check.table.storage scrutinee enclosing = some same) :
    checkQuestion inner expected span st = answer same success expected span u := by
  have hget : (get : BodyM BodyState) u = .ok (u, u) := rfl
  rw [checkQuestion, bind_of_ok h, bind_of_ok (blessedFind_run type u), ha.operand]
  dsimp only
  rw [bind_of_ok hget, ha.function]
  dsimp only
  rw [bind_of_ok (read_run hsame), answer]
  cases same with
  | true =>
    rw [if_pos rfl, if_pos rfl]
    exact bind_of_ok (read_run ha.first)
  | false => rfl

theorem followError_asked (ha : Asked u type scrutinee enclosing success) {same : Bool}
    (hsame : sameErrors u.check.table.storage scrutinee enclosing = some same) :
    followError type expected span u = answer same success expected span u := by
  have hget : (get : BodyM BodyState) u = .ok (u, u) := rfl
  rw [followError, bind_of_ok (blessedFind_run type u), ha.operand]
  dsimp only
  rw [bind_of_ok hget, ha.function]
  dsimp only
  rw [bind_of_ok (read_run hsame), answer]
  cases same with
  | true =>
    rw [if_pos rfl, if_pos rfl]
    exact bind_of_ok (read_run ha.first)
  | false => rfl

/-- Where one of the two is no instantiation, the arguments are not looked at. -/
theorem checkQuestion_missing (h : inner.check none st = .ok (type, u))
    (hm : ∀ scrutinee enclosing, findBlessed u.check.table type = some scrutinee →
      findBlessed u.check.table u.context.fnRet ≠ some enclosing) :
    checkQuestion inner expected span st = followError type expected span u := by
  have hget : (get : BodyM BodyState) u = .ok (u, u) := rfl
  rw [checkQuestion, followError, bind_of_ok h, bind_of_ok (blessedFind_run type u),
    bind_of_ok (blessedFind_run type u)]
  cases hs : findBlessed u.check.table type with
  | none => rfl
  | some scrutinee =>
    dsimp only
    rw [bind_of_ok hget, bind_of_ok hget]
    cases he : findBlessed u.check.table u.context.fnRet with
    | none => rfl
    | some enclosing => exact absurd he (hm scrutinee enclosing hs)

end

/-! ## Two packages -/

/-- `fn get() -> Result<i32, bool>`, to be called in a function of the return type. -/
def callee : Package :=
  onlyRoot [.fn (fnOf "get" [] (some (.path default (pathTo ["Result"])
    [.primitive default .i32, .primitive default .bool])) none)]

/-- A call of `get` with a `?`. -/
def getCall : Operand := ⟨callTo ["get"] [], checkExpr callee 0 (callTo ["get"] [])⟩

/-- The state in the body of a function that returns a `Result` of the type or a `bool`. -/
def returning (success : PrimitiveKind) : BodyState :=
  let enter : BodyM Unit := do
    checkTypes callee
    let ret ← check (resolveType callee (intern callee) 0 none
      (.path default (pathTo ["Result"]) [.primitive default success, .primitive default .bool]))
    modifyContext fun context => { context with fnRet := ret, inFn := true }
    pushScope
  match enter .start with
  | .ok (_, st) => st
  | .error _ => .start

/-- What `check_question` does with every operand in every function. -/
def QuestionsFollowErrors : Prop :=
  ∀ (inner : Operand) (st u : BodyState) (type : TypeIdx), inner.check none st = .ok (type, u) →
    Registry u.check.table →
      ∀ expected span, checkQuestion inner expected span st = followError type expected span u

end Alcy.Analyzer.Bodies
