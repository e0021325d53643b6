import Alcy.Analyzer.Reports

/-! # Numbers of tuple fields

`check_field` computes the number of a tuple field in 32 bits, from a spelling of any length. Below
2^32 it is the number that is written; above, what is left of it may be the number of an element.
-/
namespace Alcy.Analyzer.Bodies
open Alcy.Ast Alcy.Diag Alcy.Ir Alcy.Analyzer.Types
open Alcy.Lib.Contracts (bind_ok bind_of_ok)

/-! ## Numbers -/

/-- The number that a string of digits spells. -/
def decimal (digits : String) : Nat :=
  digits.toList.foldl (fun n c => n * 10 + (c.toNat - '0'.toNat)) 0

/-- A number of at least one digit. -/
structure IsDigits (name : String) : Prop where
  nonempty : name.toList ≠ []
  digits : ∀ c ∈ name.toList, '0' ≤ c ∧ c ≤ '9'

/-- One digit after the other, the 32-bit number is what is left of the one that is spelled. -/
theorem foldl_wraps (chars : List Char) : ∀ (index : UInt32) (n : Nat), index.toNat = n % 2 ^ 32 →
    (chars.foldl (fun index c => index * 10 + UInt32.ofNat (c.toNat - '0'.toNat)) index).toNat =
      chars.foldl (fun n c => n * 10 + (c.toNat - '0'.toNat)) n % 2 ^ 32 := by
  induction chars with
  | nil =>
    intro index n h
    exact h
  | cons c rest ih =>
    intro index n h
    refine ih _ _ ?_
    have hten : (10 : UInt32).toNat = 10 := rfl
    rw [UInt32.toNat_add, UInt32.toNat_mul, UInt32.toNat_ofNat', h, hten]
    dsimp only
    omega

theorem tupleIndex_digits {name : String} (h : IsDigits name) :
    ∃ index, tupleIndex name = some index ∧ index.toNat = decimal name % 2 ^ 32 := by
  have hany : (name.toList.any fun c => c < '0' || '9' < c) = false := by
    rw [List.any_eq_false]
    intro c hc
    obtain ⟨hlow, hhigh⟩ := h.digits c hc
    simp [Char.not_lt.2 hlow, Char.not_lt.2 hhigh]
  have hempty : name.toList.isEmpty = false := by
    rw [List.isEmpty_eq_false_iff]
    exact h.nonempty
  refine ⟨_, ?_, foldl_wraps name.toList 0 0 rfl⟩
  rw [tupleIndex, hany, hempty]
  rfl

/-! ## Accesses -/

/-- The elements of the tuple that a receiver is, behind references. -/
def tupleBehind (receiver : Operand) : BodyM (Option IdxRange) := do
  let type ← receiver.check none
  if ← isError type then return none
  else
    let type ← read fun s => derefAll s (s.types.length + 1) type
    let tag ← tagOf type
    if tag = .tuple then return some (← tupleElements type) else return none

/-- The access to the element of that number: its type, or an error where there is none. -/
def accessElement (elements : IdxRange) (index : Nat) (name : Ident) (expected : Option TypeIdx)
    (span : Span) : BodyM TypeIdx :=
  match elements.toList[index]? with
  | some type => unifyExpected expected type span "field"
  | none => reject kAnalyzerUnknownValue name.span ("unknown tuple field '" ++ name.name ++ "'")

/-- A number names an element exactly when it is less than their number. -/
theorem getElem?_toList (elements : IdxRange) (index : Nat) :
    elements.toList[index]? = if index < elements.size then some (elements.head + index) else none := by
  rw [IdxRange.toList]
  split
  · next h => rw [List.getElem?_range' h, Nat.one_mul]
  · next h => exact List.getElem?_eq_none (by rw [List.length_range']; omega)

theorem checkTupleField_eq {tuple : TypeIdx} {elements : IdxRange} {st : BodyState} {name : Ident}
    (hname : IsDigits name.name) (h : tupleElements tuple st = .ok (elements, st))
    (expected : Option TypeIdx) (span : Span) :
    checkTupleField tuple name expected span st =
      accessElement elements (decimal name.name % 2 ^ 32) name expected span st := by
  obtain ⟨index, hindex, hvalue⟩ := tupleIndex_digits hname
  rw [checkTupleField, bind_of_ok h, hindex, accessElement, getElem?_toList, ← hvalue]
  by_cases hlt : index.toNat < elements.size
  · rw [Option.filter_some, if_pos (by simpa using hlt), if_pos hlt]
    refine bind_of_ok (a := elements.head + index.toNat) (u := st) ?_
    unfold slot read check
    rw [getElem?_toList, if_pos hlt]
    rfl
  · rw [Option.filter_some, if_neg (by simpa using hlt), if_neg hlt]

/-- The code accesses the element whose number is left over. -/
theorem checkField_tuple {receiver : Operand} {elements : IdxRange} {st u : BodyState} {name : Ident}
    (hname : IsDigits name.name) (h : tupleBehind receiver st = .ok (some elements, u))
    (expected : Option TypeIdx) (span : Span) :
    checkField receiver name expected span st =
      accessElement elements (decimal name.name % 2 ^ 32) name expected span u := by
  obtain ⟨type, v, hcheck, h⟩ := bind_ok.1 h
  obtain ⟨error, v', herror, h⟩ := bind_ok.1 h
  rw [checkField, bind_of_ok hcheck, bind_of_ok herror]
  by_cases he : error = true
  · rw [if_pos he] at h
    cases h
  rw [if_neg he] at h ⊢
  obtain ⟨tuple, v'', hderef, h⟩ := bind_ok.1 h
  obtain ⟨tag, w, htag, h⟩ := bind_ok.1 h
  rw [bind_of_ok hderef, bind_of_ok htag]
  by_cases ht : tag = .tuple
  · rw [if_pos ht] at h
    obtain ⟨elements', w', helements, h⟩ := bind_ok.1 h
    cases h
    have hread := (read_ok helements).2
    subst hread
    rw [ht, if_neg (by decide), if_pos rfl]
    exact checkTupleField_eq hname helements expected span
  · rw [if_neg ht] at h
    cases h

/-- **Tuple field numbers below 2^32 are exact.** Above, the access is the one that is written
exactly when what is left of the number names no element. -/
theorem checkField_exact_iff {receiver : Operand} {elements : IdxRange} {st u : BodyState}
    {name : Ident} (hname : IsDigits name.name)
    (h : tupleBehind receiver st = .ok (some elements, u)) :
    (∀ expected span, checkField receiver name expected span st =
        accessElement elements (decimal name.name) name expected span u) ↔
      decimal name.name < 2 ^ 32 ∨ elements.size ≤ decimal name.name % 2 ^ 32 := by
  constructor
  · intro hexact
    by_contra hcond
    rw [not_or, Nat.not_lt, Nat.not_le] at hcond
    obtain ⟨hlarge, hwrapped⟩ := hcond
    have hrun := hexact none default
    rw [checkField_tuple hname h, accessElement, accessElement, getElem?_toList, getElem?_toList,
      if_pos hwrapped] at hrun
    by_cases hlt : decimal name.name < elements.size
    · rw [if_pos hlt] at hrun
      have htypes : elements.head + decimal name.name % 2 ^ 32 = elements.head + decimal name.name := by
        injection hrun with hpair
        injection hpair
      have hmod := Nat.mod_lt (decimal name.name) (Nat.two_pow_pos 32)
      omega
    · rw [if_neg hlt] at hrun
      exact reject_ne hrun.symm
  · intro hcond expected span
    rw [checkField_tuple hname h]
    rcases hcond with hsmall | hnone
    · rw [Nat.mod_eq_of_lt hsmall]
    · have hle := Nat.mod_le (decimal name.name) (2 ^ 32)
      rw [accessElement, accessElement, getElem?_toList, getElem?_toList,
        if_neg (by omega), if_neg (by omega)]

/-- The run that leads to a tuple, where its elements are known. -/
theorem tupleBehind_some {receiver : Operand} {elements : IdxRange} {st : BodyState}
    (h : (tupleBehind receiver st).toOption.map (·.1) = some (some elements)) :
    ∃ u, tupleBehind receiver st = .ok (some elements, u) := by
  obtain ⟨found, u, hrun, rfl⟩ := run_of_toOption h
  exact ⟨u, hrun⟩

/-- `(1, true)` -/
def numberAndBool : Operand :=
  let pair : Expr := .tuple default
    [.literal default ⟨.integer, default, "1"⟩, .literal default ⟨.bool, default, "true"⟩]
  ⟨pair, checkExpr (onlyRoot []) 0 pair⟩

def pairElements : IdxRange := (((tupleBehind numberAndBool .start).toOption.bind (·.1)).getD ⟨0, 0⟩)

theorem isDigits_of_all {name : String} (hne : name.toList ≠ [])
    (h : name.toList.all (fun c => '0' ≤ c && c ≤ '9') = true) : IsDigits name where
  nonempty := hne
  digits c hc := by simpa using List.all_eq_true.1 h c hc

/-- `(1, true).1` and `(1, true).2` -/
theorem pair_exact : ∃ u, tupleBehind numberAndBool .start = .ok (some pairElements, u) ∧
    (∀ expected span, checkField numberAndBool ⟨"1", default⟩ expected span .start =
      accessElement pairElements 1 ⟨"1", default⟩ expected span u) ∧
    ∀ expected span, checkField numberAndBool ⟨"2", default⟩ expected span .start =
      accessElement pairElements 2 ⟨"2", default⟩ expected span u := by
  obtain ⟨u, hu⟩ := @tupleBehind_some numberAndBool pairElements .start (by decide +kernel)
  refine ⟨u, hu, ?_, ?_⟩
  · exact (checkField_exact_iff (isDigits_of_all (by decide) (by decide)) hu).2 (.inl (by decide))
  · exact (checkField_exact_iff (isDigits_of_all (by decide) (by decide)) hu).2 (.inl (by decide))

/-- What `check_field` does with every number of a tuple field. -/
def TupleFieldsExact : Prop :=
  ∀ (receiver : Operand) (elements : IdxRange) (st u : BodyState) (name : Ident),
    IsDigits name.name → tupleBehind receiver st = .ok (some elements, u) →
      ∀ expected span, checkField receiver name expected span st =
        accessElement elements (decimal name.name) name expected span u

/-- `(1, true).4294967296` is accepted, and is the number. -/
theorem wrappedField_accepted : ¬ TupleFieldsExact ∧
    reported (checkField numberAndBool ⟨"4294967296", default⟩ none default .start) = some [] := by
  refine ⟨fun hexact => ?_, by decide +kernel⟩
  obtain ⟨u, hu⟩ := @tupleBehind_some numberAndBool pairElements .start (by decide +kernel)
  have hname : IsDigits "4294967296" := isDigits_of_all (by decide) (by decide)
  have hrun := hexact numberAndBool pairElements .start u ⟨"4294967296", default⟩ hname hu none default
  have hvalue : decimal "4294967296" = 2 ^ 32 := by decide
  have hsize : pairElements.size = 2 := by decide +kernel
  rw [checkField_tuple hname hu, accessElement, accessElement, getElem?_toList, getElem?_toList,
    hvalue, hsize, if_pos (by decide), if_neg (by decide)] at hrun
  exact reject_ne hrun.symm

end Alcy.Analyzer.Bodies
