import Alcy.Analyzer.ScopeRule

/-! # Matches with one arm for each variant

Coverage of a declared enum is a vector of flags that patterns set by name, whatever their payload.
`Result` and `Option` have no declaration, and no arm can cover their variants.
-/
namespace Alcy.Analyzer.Bodies
open Alcy.Ast Alcy.Diag Alcy.Ir Alcy.Analyzer.Types
open Alcy.Lib.Contracts (Ends bind_of_ok)

/-! ## Complete matches -/

mutual

/-- A pattern without its or-patterns on the outside. -/
def alternativesOf : Pattern → List Pattern
  | .or _ alternatives => allAlternatives alternatives
  | pattern => [pattern]

def allAlternatives : List Pattern → List Pattern
  | [] => []
  | pattern :: rest => alternativesOf pattern ++ allAlternatives rest

end

/-- A wildcard or a plain binding. -/
def isPlain : Pattern → Bool
  | .wildcard _ | .ident _ _ | .mutIdent _ _ => true
  | _ => false

/-- The name of the variant that a pattern is for. -/
def variantName : Pattern → Option String
  | .tuple _ (some path) _ => path.segments.getLast?.map (·.name)
  | _ => none

def payloadOf : Pattern → List Pattern
  | .tuple _ _ elements => elements
  | _ => []

/-- Every alternative of every arm is a variant with a plain payload, and every variant of these
names has one, in any order. -/
structure CompleteArms (names : List String) (patterns : List Pattern) : Prop where
  plain : ∀ alt ∈ allAlternatives patterns, (variantName alt).isSome ∧
    (payloadOf alt).all isPlain
  covers : ∀ i < names.length, ∃ alt ∈ allAlternatives patterns, ∃ name,
    variantName alt = some name ∧ names.findIdx? (· = name) = some i

/-- The variants of an enum as its match arms write them. -/
def variantNames (table : Table) (scrutinee : TypeIdx) : List String :=
  match enumDecl table.nominals scrutinee with
  | some decl => decl.variants.map (·.name.name)
  | none =>
    match findBlessed table scrutinee with
    | some entry => if entry.isResult then ["Ok", "Err"] else ["Some", "None"]
    | none => []

/-! ## Flags -/

/-- The later flags are at least the earlier ones. -/
structure Marks (covered covered' : List Bool) : Prop where
  length : covered'.length = covered.length
  stays : ∀ i : Nat, covered[i]? = some true → covered'[i]? = some true

theorem Marks.refl (covered : List Bool) : Marks covered covered := ⟨rfl, fun _ h => h⟩

theorem Marks.trans {a b c : List Bool} (h : Marks a b) (h' : Marks b c) : Marks a c :=
  ⟨h'.length.trans h.length, fun i hi => h'.stays i (h.stays i hi)⟩

theorem markFirst_marks (decl : EnumItem) (covered : List Bool) (fits : EnumVariant → Bool) :
    Marks covered (markFirst decl covered fits) := by
  unfold markFirst
  split
  · exact .refl _
  · next k _ =>
    refine ⟨List.length_set, fun i hi => ?_⟩
    rw [List.getElem?_set]
    split
    · next heq =>
      rw [if_pos (by rw [heq]; exact (List.getElem?_eq_some_iff.1 hi).1)]
    · exact hi

/-- The first variant of the name is marked. -/
theorem markFirst_named {decl : EnumItem} {covered : List Bool} {name : String} {i : Nat}
    (hi : i < covered.length)
    (h : (decl.variants.map (·.name.name)).findIdx? (· = name) = some i) :
    (markFirst decl covered fun v => v.name.name = name)[i]? = some true := by
  have hfirst : (decl.variants.take covered.length).findIdx? (fun v => v.name.name = name) =
      some i := by
    rw [List.findIdx?_map] at h
    obtain ⟨hlt, hname, hbefore⟩ := List.findIdx?_eq_some_iff_getElem.1 h
    refine List.findIdx?_eq_some_iff_getElem.2 ⟨?_, ?_, fun j hj => ?_⟩
    · rw [List.length_take]
      exact Nat.lt_min.2 ⟨hi, hlt⟩
    · simpa using hname
    · simpa using hbefore j hj
  rw [markFirst, hfirst]
  exact List.getElem?_set_self hi

mutual

theorem markVariantCovered_marks (decl : EnumItem) : ∀ (pattern : Pattern) (covered : List Bool),
    Marks covered (markVariantCovered decl pattern covered)
  | .ident _ _, covered => by
    unfold markVariantCovered
    exact markFirst_marks _ _ _
  | .tuple _ (some path) _, covered => by
    unfold markVariantCovered
    split
    · exact .refl _
    · exact markFirst_marks _ _ _
  | .or _ alternatives, covered => by
    unfold markVariantCovered
    exact markAllCovered_marks decl alternatives covered
  | .tuple _ none _, covered | .wildcard _, covered | .mutIdent _ _, covered
  | .literal _ _, covered | .struct _ _ _, covered | .ref _ _ _, covered => by
    unfold markVariantCovered
    exact .refl _

theorem markAllCovered_marks (decl : EnumItem) : ∀ (patterns : List Pattern) (covered : List Bool),
    Marks covered (markAllCovered decl patterns covered)
  | [], covered => by
    unfold markAllCovered
    exact .refl _
  | pattern :: rest, covered => by
    unfold markAllCovered
    exact (markVariantCovered_marks decl pattern covered).trans (markAllCovered_marks decl rest _)

end

mutual

/-- A variant that an alternative names is marked. -/
theorem markVariantCovered_names {decl : EnumItem} {name : String} {i : Nat}
    (h : (decl.variants.map (·.name.name)).findIdx? (· = name) = some i) :
    ∀ (pattern : Pattern) (covered : List Bool), i < covered.length →
      (∃ alt ∈ alternativesOf pattern, variantName alt = some name) →
        (markVariantCovered decl pattern covered)[i]? = some true
  | .tuple span (some path) elements, covered, hi, halt => by
    obtain ⟨alt, hmem, hname⟩ := halt
    unfold alternativesOf at hmem
    rw [List.mem_singleton.1 hmem, variantName] at hname
    obtain ⟨last, hlast, rfl⟩ := Option.map_eq_some_iff.1 hname
    unfold markVariantCovered
    rw [hlast]
    exact markFirst_named hi h
  | .or _ alternatives, covered, hi, halt => by
    unfold alternativesOf at halt
    unfold markVariantCovered
    exact markAllCovered_names h alternatives covered hi halt
  | .tuple _ none _, _, _, halt | .wildcard _, _, _, halt | .ident _ _, _, _, halt
  | .mutIdent _ _, _, _, halt | .literal _ _, _, _, halt | .struct _ _ _, _, _, halt
  | .ref _ _ _, _, _, halt => by
    obtain ⟨alt, hmem, hname⟩ := halt
    unfold alternativesOf at hmem
    rw [List.mem_singleton.1 hmem] at hname
    cases hname

theorem markAllCovered_names {decl : EnumItem} {name : String} {i : Nat}
    (h : (decl.variants.map (·.name.name)).findIdx? (· = name) = some i) :
    ∀ (patterns : List Pattern) (covered : List Bool), i < covered.length →
      (∃ alt ∈ allAlternatives patterns, variantName alt = some name) →
        (markAllCovered decl patterns covered)[i]? = some true
  | [], _, _, halt => by
    obtain ⟨alt, hmem, _⟩ := halt
    unfold allAlternatives at hmem
    cases hmem
  | pattern :: rest, covered, hi, halt => by
    obtain ⟨alt, hmem, hname⟩ := halt
    unfold allAlternatives at hmem
    unfold markAllCovered
    have hmarks := markVariantCovered_marks decl pattern covered
    rcases List.mem_append.1 hmem with hhere | hlater
    · exact (markAllCovered_marks decl rest _).stays i
        (markVariantCovered_names h pattern covered hi ⟨alt, hhere, hname⟩)
    · exact markAllCovered_names h rest _ (hmarks.length ▸ hi) ⟨alt, hlater, hname⟩

end

mutual

/-- A pattern with a wildcard has one among its alternatives. -/
theorem patternIsWildcard_alternatives : ∀ pattern : Pattern, patternIsWildcard pattern = true →
    ∃ alt ∈ alternativesOf pattern, variantName alt = none
  | .or _ alternatives, h => by
    unfold patternIsWildcard at h
    unfold alternativesOf
    exact anyIsWildcard_alternatives alternatives h
  | .wildcard span, _ => by
    unfold alternativesOf
    exact ⟨_, List.mem_singleton_self _, rfl⟩
  | .ident span name, _ => by
    unfold alternativesOf
    exact ⟨_, List.mem_singleton_self _, rfl⟩
  | .mutIdent span name, _ => by
    unfold alternativesOf
    exact ⟨_, List.mem_singleton_self _, rfl⟩
  | .tuple _ _ _, h | .literal _ _, h | .struct _ _ _, h | .ref _ _ _, h => by
    unfold patternIsWildcard at h
    cases h

theorem anyIsWildcard_alternatives : ∀ patterns : List Pattern, anyIsWildcard patterns = true →
    ∃ alt ∈ allAlternatives patterns, variantName alt = none
  | [], h => by
    unfold anyIsWildcard at h
    cases h
  | pattern :: rest, h => by
    unfold anyIsWildcard at h
    unfold allAlternatives
    rcases (Bool.or_eq_true _ _).mp h with hhere | hlater
    · obtain ⟨alt, hmem, hname⟩ := patternIsWildcard_alternatives pattern hhere
      exact ⟨alt, List.mem_append_left _ hmem, hname⟩
    · obtain ⟨alt, hmem, hname⟩ := anyIsWildcard_alternatives rest hlater
      exact ⟨alt, List.mem_append_right _ hmem, hname⟩

end

theorem anyIsWildcard_eq (patterns : List Pattern) :
    anyIsWildcard patterns = patterns.any patternIsWildcard := by
  induction patterns with
  | nil => rfl
  | cons pattern rest ih => rw [anyIsWildcard, ih, List.any_cons]

theorem CompleteArms.noWildcard {names : List String} {patterns : List Pattern}
    (h : CompleteArms names patterns) : patterns.any patternIsWildcard = false := by
  rw [← anyIsWildcard_eq, Bool.eq_false_iff]
  intro hany
  obtain ⟨alt, hmem, hname⟩ := anyIsWildcard_alternatives patterns hany
  have hsome := (h.plain alt hmem).1
  rw [hname] at hsome
  cases hsome

/-! ## The check -/

/-- A diagnostic that the match is not exhaustive was added. -/
def ReportsNonExhaustive (st st' : BodyState) : Prop :=
  ∃ d ∈ st'.check.bag.drop st.check.bag.length, d.code = kAnalyzerNonExhaustiveMatch

theorem reportsNonExhaustive_self (st : BodyState) : ¬ ReportsNonExhaustive st st := by
  rintro ⟨d, hd, _⟩
  rw [List.drop_length] at hd
  cases hd

theorem nonExhaustive_reports (span : Span) (message : String) (st : BodyState) :
    Ends st (nonExhaustive span message) fun _ st' => ReportsNonExhaustive st st' := by
  intro _ st' hrun
  cases hrun
  refine ⟨⟨.error, kAnalyzerNonExhaustiveMatch, "non-exhaustive " ++ message, some span⟩, ?_, rfl⟩
  show _ ∈ (st.check.bag ++ [_]).drop st.check.bag.length
  rw [List.drop_left]
  exact List.mem_singleton_self _

/-- Every variant of a declared enum is covered. -/
theorem checkVariants_quiet {decl : EnumItem} {patterns : List Pattern}
    (h : CompleteArms (decl.variants.map (·.name.name)) patterns) (count : Nat) (span : Span)
    (st : BodyState) :
    Ends st (checkVariants decl count patterns span) fun _ st' => ¬ ReportsNonExhaustive st st' := by
  unfold checkVariants
  split
  · exact .pure (reportsNonExhaustive_self st)
  · next i hfirst =>
    refine .bind fun variant u hread => ?_
    -- the check would report a variant that is there, and all of those are covered
    obtain ⟨hlt, hfalse, _⟩ := List.findIdx?_eq_some_iff_getElem.1 hfirst
    have hlength := (markAllCovered_marks decl patterns (List.replicate count false)).length
    rw [List.length_replicate] at hlength
    by_cases hdecl : i < decl.variants.length
    · obtain ⟨alt, hmem, name, hname, hindex⟩ := h.covers i (by simpa using hdecl)
      have htrue := markAllCovered_names hindex patterns (List.replicate count false)
        (by rw [List.length_replicate]; omega) ⟨alt, hmem, hname⟩
      rw [List.getElem?_eq_getElem hlt, Option.some.injEq] at htrue
      rw [htrue] at hfalse
      simp at hfalse
    · have hnone : decl.variants[i]? = none := List.getElem?_eq_none (Nat.le_of_not_lt hdecl)
      cases hnone.symm.trans (read_ok hread).1

theorem checkUndeclared_ends (scrutinee : TypeIdx) (span : Span) (st : BodyState) :
    Ends st (checkUndeclared scrutinee span) fun _ st' =>
      ¬ ReportsNonExhaustive st st' ↔ findBlessed st.check.table scrutinee = none := by
  refine .bind fun entry u hfind => ?_
  cases hfind
  split
  · next heq => exact .pure ⟨fun _ => heq, fun _ => reportsNonExhaustive_self st⟩
  · next entry heq =>
    refine (nonExhaustive_reports _ _ st).mono fun _ st' hreports => ?_
    rw [heq]
    exact ⟨fun hno => absurd hreports hno, fun hnone => by cases hnone⟩

/-- **A complete match is accepted exactly when the enum is no `Result` and no `Option`.** -/
theorem completeMatch_iff {scrutinee : TypeIdx} {patterns : List Pattern} {span : Span}
    {st st' : BodyState}
    (htag : (st.check.table.storage.types[scrutinee]?).map (·.tag) = some .enum)
    (hcomplete : CompleteArms (variantNames st.check.table scrutinee) patterns)
    (hrun : checkExhaustive scrutinee patterns span st = .ok ((), st')) :
    ¬ ReportsNonExhaustive st st' ↔
      (enumDecl st.check.table.nominals scrutinee).isSome ∨
        findBlessed st.check.table scrutinee = none := by
  have hread : tagOf scrutinee st = .ok (.enum, st) := read_eq htag
  unfold checkExhaustive at hrun
  rw [hcomplete.noWildcard, if_neg (by simp), bind_of_ok hread, if_neg (by decide),
    if_pos rfl] at hrun
  have hends : Ends st (checkEnum scrutinee patterns span) fun _ v => ¬ ReportsNonExhaustive st v ↔
      (enumDecl st.check.table.nominals scrutinee).isSome ∨
        findBlessed st.check.table scrutinee = none := by
    refine .bind fun variants u hvariants => ?_
    obtain rfl := (read_ok hvariants).2
    refine .bind (.get ?_)
    split
    · next decl hdecl =>
      have hnames : variantNames u.check.table scrutinee = decl.variants.map (·.name.name) := by
        rw [variantNames, hdecl]
      rw [hnames] at hcomplete
      refine (checkVariants_quiet hcomplete _ span u).mono fun _ v hquiet => ?_
      rw [hdecl]
      exact ⟨fun _ => .inl rfl, fun _ => hquiet⟩
    · next hnone =>
      refine (checkUndeclared_ends scrutinee span u).mono fun _ v hiff => ?_
      rw [hiff, hnone]
      exact ⟨.inr, fun h => h.resolve_left (by simp)⟩
  exact hends () st' hrun

/-- The pattern of a variant. -/
def variantPatternOf (path : List String) (payload : List Pattern) : Pattern :=
  .tuple default (some (pathTo path)) payload

def wildcardPattern : Pattern := .wildcard default

/-- `enum E { A(i32), B }` -/
def enumE : Package :=
  onlyRoot [.enum ⟨default, false, ⟨"E", default⟩,
    [⟨⟨"A", default⟩, [.primitive default .i32]⟩, ⟨⟨"B", default⟩, []⟩]⟩]

/-- `{ B => …, E::A(_) => … }` -/
def enumArms : List Pattern :=
  [variantPatternOf ["B"] [], variantPatternOf ["E", "A"] [wildcardPattern]]

/-- The match over `E` is complete and accepted. -/
theorem enumE_accepted : ∃ scrutinee st st', typed enumE = some st ∧
    checkExhaustive scrutinee enumArms default st = .ok ((), st') ∧
    ¬ ReportsNonExhaustive st st' := by
  have hrun : ((typed enumE).bind fun st => (st.check.table.nominals.head?).bind fun entry =>
      some (((st.check.table.storage.types[entry.type]?).map (·.tag),
        variantNames st.check.table entry.type,
        (enumDecl st.check.table.nominals entry.type).isSome,
        (checkExhaustive entry.type enumArms default st).toOption.isSome))) =
      some (some .enum, ["A", "B"], true, true) := by decide +kernel
  obtain ⟨st, hst, hrun⟩ := Option.bind_eq_some_iff.1 hrun
  obtain ⟨entry, _, hrun⟩ := Option.bind_eq_some_iff.1 hrun
  simp only [Option.some.injEq, Prod.mk.injEq] at hrun
  obtain ⟨htag, hnames, hdecl, hok⟩ := hrun
  cases hcheck : checkExhaustive entry.type enumArms default st with
  | error fault =>
    rw [hcheck] at hok
    cases hok
  | ok result =>
    refine ⟨entry.type, st, result.2, hst, hcheck, ?_⟩
    refine (completeMatch_iff htag ?_ hcheck).2 (.inl hdecl)
    rw [hnames]
    exact ⟨by decide, by decide⟩

/-- `fn f(o: Option<i32>) { match o { Some(_) => {}, None => {} } }` -/
def matchOption : Package :=
  let empty : Expr := .block default (.mk default [] none)
  onlyRoot [.fn (fnOf "f"
    [⟨.ident default ⟨"o", default⟩, .path default (pathTo ["Option"]) [.primitive default .i32]⟩]
    none (some (.matchExpr default (.path default (pathTo ["o"]))
      [.mk (variantPatternOf ["Some"] [wildcardPattern]) empty,
        .mk (variantPatternOf ["None"] []) empty])))]

/-- The match over `Option` is complete and rejected. -/
theorem matchOption_rejected :
    CompleteArms ["Some", "None"]
      [variantPatternOf ["Some"] [wildcardPattern], variantPatternOf ["None"] []] ∧
    reported (checkPackage matchOption .start) =
      some [(kAnalyzerNonExhaustiveMatch, "non-exhaustive match over 'Option'")] :=
  ⟨⟨by decide, by decide⟩, by decide +kernel⟩

end Alcy.Analyzer.Bodies
