import Alcy.Analyzer.Contexts

/-! # Comparisons with the never type

`unify` compares the type of a value with a declared one, and also joins the branches of a
conditional. It lets `!` pass on either side. What follows is about every comparison that the check
of a package makes.
-/
namespace Alcy.Analyzer.Bodies
open Alcy.Ast Alcy.Diag Alcy.Ir Alcy.Analyzer.Types
open Alcy.Lib.Contracts (Contract Ends Keeps Leaves bind_ok bind_of_ok bind_cases)

/-! ## One comparison -/

/-- The tag of a type in the tables. -/
def tagIn (s : Storage) (idx : TypeIdx) : Option TypeTag := (s.types[idx]?).map (·.tag)

namespace Comparison

def expectedTag (c : Comparison) : Option TypeTag := tagIn c.storage c.expected

def actualTag (c : Comparison) : Option TypeTag := tagIn c.storage c.actual

/-- A value passes silently only where a value of its type is declared, or where there is none. -/
def Directed (c : Comparison) : Prop :=
  c.silent = true → c.expectedTag ≠ some .error → c.actualTag ≠ some .error →
    typesEqual c.storage c.expected c.actual = some true ∨ c.actualTag = some .never

/-- `!` is not declared, or there is no value of another type. -/
def NeverOnlyFromNever (c : Comparison) : Prop :=
  c.expectedTag ≠ some .never ∨ c.actualTag = some .never ∨ c.actualTag = some .error

end Comparison

/-- Types that are equal have the same tag. -/
theorem tagIn_of_typesEqual {s : Storage} {a b : TypeIdx} (h : typesEqual s a b = some true) :
    tagIn s a = tagIn s b := by
  obtain ⟨result, hresult, htrue⟩ := Option.map_eq_some_iff.1 h
  unfold typesEqualInner at hresult
  split at hresult
  · next heq => rw [heq]
  · split at hresult
    · next hseen => cases hseen
    · obtain ⟨left, hleft, hresult⟩ := Option.bind_eq_some_iff.1 hresult
      obtain ⟨right, hright, hresult⟩ := Option.bind_eq_some_iff.1 hresult
      split at hresult
      · cases hresult
        cases htrue
      · next htags =>
        rw [tagIn, tagIn, hleft, hright, Option.map_some, Option.map_some, not_not.1 htags]

theorem tagOf_ok {idx : TypeIdx} {tag : TypeTag} {st st' : BodyState}
    (h : tagOf idx st = .ok (tag, st')) : tagIn st.check.table.storage idx = some tag ∧ st' = st :=
  read_ok h

/-- A test on a tag. -/
theorem tagTest_ok {idx : TypeIdx} {wanted : TypeTag} {answer : Bool} {st st' : BodyState}
    (h : (do return (← tagOf idx) = wanted : BodyM Bool) st = .ok (answer, st')) :
    (answer = true ↔ tagIn st.check.table.storage idx = some wanted) ∧ st' = st := by
  obtain ⟨tag, u, hread, hanswer⟩ := bind_ok.1 h
  obtain ⟨htag, rfl⟩ := tagOf_ok hread
  cases hanswer
  rw [htag, decide_eq_true_iff, Option.some.injEq]
  exact ⟨Iff.rfl, rfl⟩

/-- Which comparisons are silent. -/
def Passes (s : Storage) (expected actual : TypeIdx) : Prop :=
  tagIn s expected = some .error ∨ tagIn s actual = some .error ∨
    typesEqual s expected actual = some true ∨ tagIn s expected = some .never ∨
      tagIn s actual = some .never

theorem unified_bag (expected actual : TypeIdx) (span : Span) (what : String) (st : BodyState) :
    Ends st (unified expected actual span what) fun _ st' =>
      st'.check.bag = st.check.bag ↔ Passes st.check.table.storage expected actual := by
  refine .bind fun error u h => ?_
  obtain ⟨herror, rfl⟩ := tagTest_ok h
  by_cases h₁ : error = true
  · rw [if_pos h₁]
    exact .pure ⟨fun _ => .inl (herror.1 h₁), fun _ => rfl⟩
  rw [if_neg h₁]
  refine .bind fun error' u h => ?_
  obtain ⟨herror', rfl⟩ := tagTest_ok h
  by_cases h₂ : error' = true
  · rw [if_pos h₂]
    exact .pure ⟨fun _ => .inr (.inl (herror'.1 h₂)), fun _ => rfl⟩
  rw [if_neg h₂]
  refine .bind fun same u h => ?_
  obtain ⟨hsame, rfl⟩ := read_ok h
  by_cases h₃ : same = true
  · rw [if_pos h₃]
    rw [h₃] at hsame
    exact .pure ⟨fun _ => .inr (.inr (.inl hsame)), fun _ => rfl⟩
  rw [if_neg h₃]
  refine .bind fun never u h => ?_
  obtain ⟨hnever, rfl⟩ := tagTest_ok h
  by_cases h₄ : never = true
  · rw [if_pos h₄]
    exact .pure ⟨fun _ => .inr (.inr (.inr (.inl (hnever.1 h₄)))), fun _ => rfl⟩
  rw [if_neg h₄]
  refine .bind fun never' u h => ?_
  obtain ⟨hnever', rfl⟩ := tagTest_ok h
  by_cases h₅ : never' = true
  · rw [if_pos h₅]
    exact .pure ⟨fun _ => .inr (.inr (.inr (.inr (hnever'.1 h₅)))), fun _ => rfl⟩
  rw [if_neg h₅]
  refine .bind fun wanted u h => ?_
  obtain ⟨-, rfl⟩ := tagOf_ok h
  refine .bind fun found u h => ?_
  obtain ⟨-, rfl⟩ := tagOf_ok h
  intro type st' hrun
  obtain ⟨_, v, hreport, hrest⟩ := bind_ok.1 hrun
  constructor
  · intro hbag
    -- the error would have to be taken back
    have hlength := (forwardRule.errorType.ends v type st' trivial hrest).bag.length_le
    cases hreport
    rw [hbag] at hlength
    exact absurd hlength (by simp [emit])
  · rintro (ht | ht | ht | ht | ht)
    · exact absurd (herror.2 ht) h₁
    · exact absurd (herror'.2 ht) h₂
    · rw [hsame, Option.some.injEq] at ht
      exact absurd ht h₃
    · exact absurd (hnever.2 ht) h₄
    · exact absurd (hnever'.2 ht) h₅

/-- What is entered into the history is right unless `!` is declared and a value is there. -/
theorem directed_iff {c : Comparison}
    (h : c.silent = true ↔ Passes c.storage c.expected c.actual) :
    c.Directed ↔ c.NeverOnlyFromNever := by
  constructor
  · intro hdirected
    by_contra hcond
    simp only [Comparison.NeverOnlyFromNever, not_or, not_not] at hcond
    obtain ⟨hnever, hother, hnoError⟩ := hcond
    have hsilent := h.2 (.inr (.inr (.inr (.inl hnever))))
    have hexpected : c.expectedTag ≠ some .error := by
      rw [hnever]
      decide
    rcases hdirected hsilent hexpected hnoError with hequal | hactual
    · have htags : c.expectedTag = c.actualTag := tagIn_of_typesEqual hequal
      exact hother (htags ▸ hnever)
    · exact hother hactual
  · intro hcond hsilent hexpected hactual
    rcases h.1 hsilent with he | ha | hequal | hnever | hnever
    · exact absurd he hexpected
    · exact absurd ha hactual
    · exact .inl hequal
    · rcases hcond with hno | hother | herror
      · exact absurd hnever hno
      · exact .inr hother
      · exact absurd herror hactual
    · exact .inr hnever

/-! ## All comparisons of a run -/

def Judged (c : Comparison) : Prop := c.Directed ↔ c.NeverOnlyFromNever

/-- New entries of the history are judged. -/
def judging : Contract BodyState Fault where
  inv _ := True
  bad _ := False
  rel st st' := ∀ c ∈ st'.comparisons, c ∈ st.comparisons ∨ Judged c
  refl _ _ _ hc := .inl hc
  trans _ h h' c hc := (h' c hc).elim (h c) .inr
  stable _ _ := trivial

/-- A step that makes no comparison. -/
theorem judging_same {α : Type} {m : BodyM α}
    (h : ∀ st a st', m st = .ok (a, st') → st'.comparisons = st.comparisons) : Keeps judging m where
  fails _ _ _ _ := id
  ends st a st' _ hrun c hc := .inl (by rwa [← h st a st' hrun])

theorem check_judging {α : Type} {m : CheckM α} : Keeps judging (check m) := by
  refine judging_same fun st a st' h => ?_
  obtain ⟨checked, _, rfl⟩ := check_ok h
  rfl

theorem unify_judging {expected actual : TypeIdx} {span : Span} {what : String}
    (h : Keeps judging (unified expected actual span what)) :
    Keeps judging (unify expected actual span what) where
  fails _ _ _ _ := id
  ends st type st' _ hrun c hc := by
    obtain ⟨_, _, hget, hrun⟩ := bind_ok.1 hrun
    cases hget
    obtain ⟨result, u, hunified, hrun⟩ := bind_ok.1 hrun
    have hbag := unified_bag _ _ _ _ _ _ _ hunified
    have hold := h.ends _ _ _ trivial hunified
    cases hrun
    rcases List.mem_append.1 hc with hc | hc
    · exact hold c hc
    · rw [List.mem_singleton.1 hc]
      exact .inr (directed_iff (decide_eq_true_iff.trans hbag))

theorem judgingRule : PackageRule (fun _ => Keeps judging) (fun _ => Keeps judging)
    (fun _ => Keeps judging) := by
  refine Closed.packageRule ⟨.pure, .bind⟩ .get (fun _ => check_judging) ?_ ?_ ?_
  · intro expected actual span what h
    exact unify_judging h
  · refine judging_same fun st a st' h => ?_
    unfold innermost at h
    split at h <;> cases h
    rfl
  · intro f
    refine judging_same fun st a st' h => ?_
    cases h
    rfl

/-- **In every run a comparison lets only `!` pass for another type exactly when it does not compare
a value with a declared `!`.** -/
theorem comparisons_directed_iff (p : Package) {st : BodyState}
    (hrun : checkPackage p .start = .ok ((), st)) :
    ∀ c ∈ st.comparisons, c.Directed ↔ c.NeverOnlyFromNever := by
  have hkeeps : Keeps judging (checkPackage p) :=
    (check_judging.bind fun _ => check_judging).bind fun _ =>
      (judgingRule.checkBodies (p := p)).bind fun _ => check_judging
  intro c hc
  rcases hkeeps.ends .start () st trivial hrun c hc with hstart | hjudged
  · cases hstart
  · exact hjudged

/-- A function of that return type whose body is `5`. -/
def returningFive (ret : Ty) : Package :=
  onlyRoot [.fn (fnOf "f" [] (some ret) (some (.literal default ⟨.integer, default, "5"⟩)))]

/-- The outcome of a package without diagnostics: the comparisons, silent or not, by tags. -/
def comparedTags (p : Package) : Option (List (Bool × Option TypeTag × Option TypeTag)) :=
  ((checkPackage p .start).toOption.filter fun r => r.2.check.bag.isEmpty).map fun r =>
    r.2.comparisons.map fun c => (c.silent, c.expectedTag, c.actualTag)

theorem comparedTags_some {p : Package} {compared : List (Bool × Option TypeTag × Option TypeTag)}
    (h : comparedTags p = some compared) : ∃ st, checkPackage p .start = .ok ((), st) ∧
      st.check.bag = [] ∧
        st.comparisons.map (fun c => (c.silent, c.expectedTag, c.actualTag)) = compared := by
  obtain ⟨r, hr, hcompared⟩ := Option.map_eq_some_iff.1 h
  obtain ⟨hr, hbag⟩ := Option.filter_eq_some_iff.1 hr
  cases hrun : checkPackage p .start with
  | error fault =>
    rw [hrun] at hr
    cases hr
  | ok result =>
    rw [hrun] at hr
    cases hr
    exact ⟨r.2, rfl, List.isEmpty_iff.1 hbag, hcompared⟩

/-- `fn f() -> i32 { 5 }` compares rightly. -/
theorem numberReturning_directed : ∃ st,
    checkPackage (returningFive (.primitive default .i32)) .start = .ok ((), st) ∧
      st.comparisons ≠ [] ∧ ∀ c ∈ st.comparisons, c.Directed := by
  have hrun : comparedTags (returningFive (.primitive default .i32)) =
      some [(true, some .i32, some .i32)] := by decide +kernel
  obtain ⟨st, hrun, _, hcompared⟩ := comparedTags_some hrun
  refine ⟨st, hrun, ?_, ?_⟩
  · intro hnil
    rw [hnil] at hcompared
    cases hcompared
  · intro c hc
    refine (comparisons_directed_iff _ hrun c hc).2 (.inl ?_)
    have hmem := List.mem_map_of_mem (f := fun c => (c.silent, c.expectedTag, c.actualTag)) hc
    rw [hcompared, List.mem_singleton, Prod.mk.injEq, Prod.mk.injEq] at hmem
    rw [hmem.2.1]
    decide

/-- `fn f() -> ! { 5 }` is accepted, with a number where `!` is declared. -/
theorem neverReturning_accepted : ∃ st,
    checkPackage (returningFive (.never default)) .start = .ok ((), st) ∧ st.check.bag = [] ∧
      ∃ c ∈ st.comparisons, c.expectedTag = some .never ∧ c.actualTag = some .i32 ∧
        ¬ c.Directed := by
  have hrun : comparedTags (returningFive (.never default)) =
      some [(true, some .never, some .i32), (true, some .never, some .i32)] := by decide +kernel
  obtain ⟨st, hrun, hbag, hcompared⟩ := comparedTags_some hrun
  have hmem : (true, some .never, some .i32) ∈
      st.comparisons.map fun c => (c.silent, c.expectedTag, c.actualTag) := by
    rw [hcompared]
    exact List.mem_cons_self ..
  obtain ⟨c, hc, htags⟩ := List.mem_map.1 hmem
  simp only [Prod.mk.injEq] at htags
  obtain ⟨hsilent, hexpected, hactual⟩ := htags
  refine ⟨st, hrun, hbag, c, hc, hexpected, hactual, fun hdirected => ?_⟩
  have hexpected' : c.expectedTag ≠ some .error := by
    rw [hexpected]
    decide
  have hactual' : c.actualTag ≠ some .error := by
    rw [hactual]
    decide
  rcases hdirected hsilent hexpected' hactual' with hequal | hnever
  · have htags : c.expectedTag = c.actualTag := tagIn_of_typesEqual hequal
    rw [hexpected, hactual] at htags
    cases htags
  · rw [hactual] at hnever
    cases hnever

end Alcy.Analyzer.Bodies
