import Alcy.Analyzer.Contexts

/-! # The names of or-patterns

`bind_pattern` compares the alternatives of an or-pattern by two windows of the innermost scope, the
first of which is empty: it starts where the locals of the first alternative end.
-/
namespace Alcy.Analyzer.Bodies
open Alcy.Ast Alcy.Diag Alcy.Ir Alcy.Analyzer.Types
open Alcy.Lib.Contracts (Ends Keeps bind_ok bind_of_ok)

variable {p : Package}

/-! ## The names that a run binds -/

/-- When no diagnostic is added, the locals that are have these names. -/
structure Binding (st : BodyState) (names : List String) (st' : BodyState) : Prop where
  onward : Onward st.check st'.check
  scopes : st'.context.scopes ≠ []
  named : st'.check.bag = st.check.bag →
    ∃ new, st'.context = st.context.declared new ∧ new.map (·.name) = names

theorem Binding.refl {st : BodyState} (hs : st.context.scopes ≠ []) : Binding st [] st :=
  ⟨Std.Refl.refl _, hs, fun _ => ⟨[], (Context.declared_nil hs).symm, rfl⟩⟩

theorem Binding.trans {st st' st'' : BodyState} {names more : List String}
    (h : Binding st names st') (h' : Binding st' more st'') : Binding st (names ++ more) st'' where
  onward := IsTrans.trans _ _ _ h.onward h'.onward
  scopes := h'.scopes
  named hbag := by
    obtain ⟨hfirst, hsecond⟩ := h.onward.silent h'.onward hbag
    obtain ⟨new, hnew, hnames⟩ := h.named hfirst
    obtain ⟨later, hlater, hmore⟩ := h'.named hsecond
    refine ⟨new ++ later, ?_, ?_⟩
    · rw [hlater, hnew, Context.declared_declared]
    · rw [List.map_append, hnames, hmore]

/-- A program that leaves the context alone. -/
theorem restored_binding {α : Type} {m : BodyM α} (hf : Keeps forward m) (hc : Keeps restoring m)
    {st : BodyState} (hs : st.context.scopes ≠ []) : Ends st m fun _ st' => Binding st [] st' := by
  intro a st' hrun
  have hcontext : st'.context = st.context := hc.ends st a st' trivial hrun
  refine ⟨hf.ends st a st' trivial hrun, by rw [hcontext]; exact hs, fun _ => ⟨[], ?_, rfl⟩⟩
  rw [hcontext, Context.declared_nil hs]

theorem binding_bind {α β : Type} {m : BodyM α} {k : α → BodyM β} {st : BodyState}
    {names more : List String} (hm : Ends st m fun _ u => Binding st names u)
    (hk : ∀ a u, u.context.scopes ≠ [] → Ends u (k a) fun _ v => Binding u more v) :
    Ends st (m >>= k) fun _ v => Binding st (names ++ more) v :=
  .bind (hm.mono fun a u hu => (hk a u hu.scopes).mono fun _ _ hv => hu.trans hv)

/-- What comes before binds nothing. -/
theorem binding_after {α β : Type} {m : BodyM α} {k : α → BodyM β} (hf : Keeps forward m)
    (hc : Keeps restoring m) {st : BodyState} {names : List String} (hs : st.context.scopes ≠ [])
    (hk : ∀ a u, u.context.scopes ≠ [] → Ends u (k a) fun _ v => Binding u names v) :
    Ends st (m >>= k) fun _ v => Binding st names v :=
  binding_bind (restored_binding hf hc hs) hk

theorem binding_pure {α : Type} (a : α) {st : BodyState} (hs : st.context.scopes ≠ []) :
    Ends st (pure a : BodyM α) fun _ v => Binding st [] v :=
  .pure (.refl hs)

/-- What comes after binds nothing. -/
theorem binding_return {α β : Type} {m : BodyM α} {a : β} {st : BodyState} {names : List String}
    (hm : Ends st m fun _ u => Binding st names u) :
    Ends st (do let _ ← m; return a) fun _ v => Binding st names v := by
  have h := binding_bind hm fun _ u hu => binding_pure a hu
  rwa [List.append_nil] at h

theorem declare_binding (new : Local) {st : BodyState} (hs : st.context.scopes ≠ []) :
    Ends st (declare new) fun _ v => Binding st [new.name] v := by
  intro a st' hrun
  have heq : declare new st = .ok ((), { st with context := st.context.declared [new] }) :=
    (bind_of_ok (innermost_eq hs)).trans rfl
  rw [heq] at hrun
  cases hrun
  exact ⟨Std.Refl.refl _, Context.declared_scopes _ _, fun _ => ⟨[new], rfl, rfl⟩⟩

theorem bindErrorIdents_binding (pattern : Pattern) {st : BodyState}
    (hs : st.context.scopes ≠ []) :
    Ends st (bindErrorIdents pattern) fun _ v => Binding st (collectPatternIdents pattern) v := by
  unfold bindErrorIdents
  generalize collectPatternIdents pattern = names
  induction names generalizing st with
  | nil => exact binding_pure () hs
  | cons name names ih =>
    refine @binding_bind _ _ _ _ _ [name] _ ?_ fun _ u hu => ih hu
    exact binding_after forwardRule.errorType contextRule.errorType hs fun type u hu =>
      declare_binding _ hu

/-! ## One later alternative -/

/-- The diagnostic of an alternative that binds other names. -/
def mismatch (span : Span) : Diagnostic :=
  ⟨.error, kAnalyzerInvalidOperation, "or-pattern alternatives must bind the same names", some span⟩

/-- The state with more diagnostics. -/
def BodyState.reporting (st : BodyState) (more : DiagBag) : BodyState :=
  { st with check := { st.check with bag := st.check.bag ++ more } }

theorem report_eq (code : Nat) (span : Span) (message : String) (st : BodyState) :
    report code span message st =
      .ok ((), st.reporting [⟨.error, code, message, some span⟩]) := rfl

/-- With an empty window to compare with, every local is reported. -/
theorem compareNames_eq {st u : BodyState} {new : List Local}
    (hu : u.context = st.context.declared new) (span : Span) :
    compareNames (st.context.scopes.headD []).length (st.context.scopes.headD []).length span u =
      .ok ((), u.reporting (new.map fun _ => mismatch span)) := by
  have hs : u.context.scopes ≠ [] := by
    rw [hu]
    exact Context.declared_scopes _ _
  refine (bind_of_ok (innermost_eq hs)).trans ?_
  have hhead : u.context.scopes.headD [] = st.context.scopes.headD [] ++ new := by
    rw [hu]
    rfl
  rw [hhead, List.drop_left, List.take_left, List.drop_length]
  clear hhead hu hs
  induction new generalizing u with
  | nil =>
    have hnil : u.reporting [] = u := by simp [BodyState.reporting]
    exact congrArg (fun st => Except.ok ((), st)) hnil.symm
  | cons entry new ih =>
    refine (bind_of_ok (report_eq kAnalyzerInvalidOperation span _ u)).trans ?_
    refine ih.trans ?_
    simp [BodyState.reporting, mismatch]

/-- A later alternative is reported once for each of its locals, and none of them stays. -/
theorem alternative_eq {α : Type} {m : BodyM α} {st u : BodyState} {a : α} {new : List Local}
    (hs : st.context.scopes ≠ []) (hm : m st = .ok (a, u))
    (hu : u.context = st.context.declared new) (span : Span) :
    alternative (st.context.scopes.headD []).length span m st =
      .ok (a, { u.reporting (new.map fun _ => mismatch span) with context := st.context }) := by
  refine (bind_of_ok (innermost_eq hs)).trans ?_
  refine (bind_of_ok hm).trans ?_
  refine (bind_of_ok (compareNames_eq hu span)).trans ?_
  have herase := @eraseFrom_eq st (u.reporting (new.map fun _ => mismatch span)) new hs hu
  exact (bind_of_ok herase).trans rfl

theorem alternative_cases {α : Type} {m : BodyM α} (hm : Keeps declaring m) {st v : BodyState} {a : α}
    (hs : st.context.scopes ≠ []) {span : Span}
    (hrun : alternative (st.context.scopes.headD []).length span m st = .ok (a, v)) :
    ∃ u new, m st = .ok (a, u) ∧ u.context = st.context.declared new ∧
      v = { u.reporting (new.map fun _ => mismatch span) with context := st.context } := by
  have hinner := hrun
  obtain ⟨scope, w, hscope, hrest⟩ := bind_ok.1 hinner
  rw [innermost_eq hs] at hscope
  cases hscope
  obtain ⟨b, u, hb, -⟩ := bind_ok.1 hrest
  obtain ⟨new, hu⟩ := hm.ends st b u hs hb
  rw [alternative_eq hs hb hu span] at hrun
  cases hrun
  exact ⟨u, new, hb, hu, rfl⟩

/-- Quietly, an alternative binds nothing. -/
theorem alternative_binding {α : Type} {m : BodyM α} (hm : Keeps declaring m) {st : BodyState}
    {names : List String} (hs : st.context.scopes ≠ [])
    (hnames : Ends st m fun _ u => Binding st names u) (span : Span) :
    Ends st (alternative (st.context.scopes.headD []).length span m) fun _ v =>
      Binding st names v ∧ v.context = st.context := by
  intro a v hrun
  obtain ⟨u, new, hu, hnew, rfl⟩ := alternative_cases hm hs hrun
  have hbinding := hnames a u hu
  have honward : Onward u.check (u.reporting (new.map fun _ => mismatch span)).check :=
    ⟨rfl, List.prefix_append _ _, .refl _, rfl, fun _ _ h _ => h⟩
  refine ⟨⟨IsTrans.trans _ _ _ hbinding.onward honward, hs, fun hbag => ⟨[], ?_, ?_⟩⟩, rfl⟩
  · exact (Context.declared_nil hs).symm
  · have hquiet : u.check.bag = st.check.bag := by
      refine (hbinding.onward.bag.eq_of_length_le ?_).symm
      rw [← hbag]
      exact honward.bag.length_le
    obtain ⟨new', hnew', rfl⟩ := hbinding.named hquiet
    have hsame : new' = new := by
      have h := hnew'.symm.trans hnew
      simpa [Context.declared, Context.withInnermost] using h
    rw [hsame]
    have hnone : u.check.bag ++ new.map (fun _ => mismatch span) = st.check.bag := hbag
    rw [hquiet] at hnone
    simpa using hnone

/-! ## Patterns -/

theorem fittingPayload_length (span : Span) (arity : Nat) (type : TypeIdx) (resolved : PathValue)
    (st : BodyState) :
    Ends st (fittingPayload p span arity type resolved) fun payloads _ =>
      ∀ types, payloads = some types → types.length = arity := by
  refine .after fun payloads u => ?_
  split
  · next h =>
    refine .pure fun types htypes => ?_
    cases htypes
    exact h
  · exact .after fun _ _ => .pure fun types h => by cases h

theorem variantPattern_length (module : Nat) (span : Span) (path : Path) (arity : Nat)
    (type : TypeIdx) (st : BodyState) :
    Ends st (variantPattern p module span path arity type) fun payloads _ =>
      ∀ types, payloads = some types → types.length = arity := by
  refine .after fun resolved u => ?_
  split
  · exact .pure fun types h => by cases h
  · exact .after fun _ u => fittingPayload_length _ _ _ _ u
  · exact fittingPayload_length _ _ _ _ u
  · exact .after fun _ _ => .pure fun types h => by cases h

theorem tuplePattern_length (span : Span) (arity : Nat) (type : TypeIdx) (st : BodyState) :
    Ends st (tuplePattern span arity type) fun payloads _ =>
      ∀ types, payloads = some types → types.length = arity := by
  refine .after fun tag u => ?_
  split
  · exact .after fun _ _ => .after fun _ _ => .pure fun types h => by cases h
  · refine .after fun elements u => ?_
    split
    · next h =>
      refine .pure fun types htypes => ?_
      cases htypes
      rw [IdxRange.toList, List.length_range']
      exact h
    · exact .after fun _ _ => .pure fun types h => by cases h

/-- A first part that binds nothing, with something known of its value. -/
theorem binding_with {α β : Type} {m : BodyM α} {k : α → BodyM β} {P : α → Prop}
    (hf : Keeps forward m) (hc : Keeps restoring m) {st : BodyState} {names : List String}
    (hs : st.context.scopes ≠ []) (hm : Ends st m fun a _ => P a)
    (hk : ∀ a u, P a → u.context.scopes ≠ [] → Ends u (k a) fun _ v => Binding u names v) :
    Ends st (m >>= k) fun _ v => Binding st names v := by
  refine .bind fun a u hrun => ?_
  have hu := restored_binding hf hc hs a u hrun
  exact (hk a u (hm a u hrun) hu.scopes).mono fun _ v hv => hu.trans hv

mutual

/-- **Without a diagnostic the locals of a pattern are its names**, those of every alternative of an
or-pattern inside. -/
theorem bindPattern_binding (module : Nat) : ∀ (pattern : Pattern) (type : TypeIdx) (st : BodyState),
    st.context.scopes ≠ [] → Ends st (bindPattern p module pattern type) fun _ v =>
      Binding st (collectPatternIdents pattern) v
  | .wildcard _, _, st, hs => by
    unfold bindPattern collectPatternIdents
    exact binding_pure _ hs
  | .ident _ name, type, st, hs => by
    unfold bindPattern collectPatternIdents
    exact binding_return (declare_binding _ hs)
  | .mutIdent _ name, type, st, hs => by
    unfold bindPattern collectPatternIdents
    exact binding_return (declare_binding _ hs)
  | .literal _ value, type, st, hs => by
    unfold bindPattern collectPatternIdents
    exact binding_return (restored_binding (forwardRule.checkLiteral _ _)
      (contextRule.checkLiteral _ _) hs)
  | .tuple span (some path) elements, type, st, hs => by
    unfold bindPattern
    refine binding_with (forwardRule.variantPattern _ _ _ _ _) (contextRule.variantPattern _ _ _ _ _)
      hs (variantPattern_length _ _ _ _ _ st) fun payloads u hlength hu => ?_
    split
    · exact binding_return (bindErrorIdents_binding _ hu)
    · unfold collectPatternIdents
      exact bindPayload_binding module elements _ _ u (hlength _ rfl) hu
  | .tuple span none elements, type, st, hs => by
    unfold bindPattern
    refine binding_with (forwardRule.tuplePattern _ _ _) (contextRule.tuplePattern _ _ _)
      hs (tuplePattern_length _ _ _ st) fun types u hlength hu => ?_
    split
    · exact binding_return (bindErrorIdents_binding _ hu)
    · unfold collectPatternIdents
      exact bindElements_binding module elements _ _ u (hlength _ rfl) hu
  | .struct span path fields, type, st, hs => by
    unfold bindPattern
    refine binding_after (forwardRule.structPattern _ _ _ _) (contextRule.structPattern _ _ _ _)
      hs fun found u hu => ?_
    split
    · exact binding_return (bindErrorIdents_binding _ hu)
    · unfold collectPatternIdents
      exact bindFields_binding module _ _ fields _ u hu
  | .ref span isMut inner, type, st, hs => by
    unfold bindPattern
    refine binding_after (forwardRule.refPattern _ _ _) (contextRule.refPattern _ _ _)
      hs fun pointee u hu => ?_
    split
    · exact binding_return (bindErrorIdents_binding _ hu)
    · unfold collectPatternIdents
      exact bindPattern_binding module inner _ u hu
  | .or _ [], _, st, hs => by
    unfold bindPattern collectPatternIdents collectAllIdents
    exact binding_pure _ hs
  | .or _ (first :: rest), type, st, hs => by
    unfold bindPattern collectPatternIdents collectAllIdents
    refine binding_bind (bindPattern_binding module first type st hs) fun refutable u hu => ?_
    refine .bind fun scope w hscope => ?_
    rw [innermost_eq hu] at hscope
    cases hscope
    exact bindAlternatives_binding module type rest refutable u _ rfl hu

theorem bindPayload_binding (module : Nat) : ∀ (patterns : List Pattern) (types : List TypeIdx)
    (refutable : Bool) (st : BodyState), types.length = patterns.length →
      st.context.scopes ≠ [] → Ends st (bindPayload p module patterns types refutable) fun _ v =>
        Binding st (collectAllIdents patterns) v
  | [], _, _, st, _, hs => by
    unfold bindPayload collectAllIdents
    exact binding_pure _ hs
  | _ :: _, [], _, _, hlength, _ => by cases hlength
  | pattern :: rest, type :: types, refutable, st, hlength, hs => by
    unfold bindPayload collectAllIdents
    exact binding_bind (bindPattern_binding module pattern type st hs) fun part u hu =>
      bindPayload_binding module rest types _ u (Nat.succ.inj hlength) hu

theorem bindElements_binding (module : Nat) : ∀ (patterns : List Pattern) (types : List TypeIdx)
    (refutable : Bool) (st : BodyState), types.length = patterns.length →
      st.context.scopes ≠ [] → Ends st (bindElements p module patterns types refutable) fun _ v =>
        Binding st (collectAllIdents patterns) v
  | [], _, _, st, _, hs => by
    unfold bindElements collectAllIdents
    exact binding_pure _ hs
  | _ :: _, [], _, _, hlength, _ => by cases hlength
  | pattern :: rest, type :: types, refutable, st, hlength, hs => by
    unfold bindElements collectAllIdents
    exact binding_bind (bindPattern_binding module pattern type st hs) fun part u hu =>
      bindElements_binding module rest types _ u (Nat.succ.inj hlength) hu

theorem bindFields_binding (module : Nat) (decl : StructItem) (types : IdxRange) :
    ∀ (fields : List (Ident × Pattern)) (refutable : Bool) (st : BodyState),
      st.context.scopes ≠ [] →
        Ends st (bindFields p module decl types fields refutable) fun _ v =>
          Binding st (collectFieldIdents fields) v
  | [], _, st, hs => by
    unfold bindFields collectFieldIdents
    exact binding_pure _ hs
  | (name, pattern) :: rest, refutable, st, hs => by
    unfold bindFields collectFieldIdents
    split
    · refine binding_after (forwardRule.report _ _ _) (contextRule.report _ _ _) hs fun _ u hu => ?_
      exact binding_bind (bindErrorIdents_binding pattern hu) fun _ w hw =>
        bindFields_binding module decl types rest _ w hw
    · refine binding_after (forwardRule.slot _ _) (contextRule.slot _ _) hs fun type u hu => ?_
      exact binding_bind (bindPattern_binding module pattern type u hu) fun part w hw =>
        bindFields_binding module decl types rest _ w hw

theorem bindAlternatives_binding (module : Nat) (type : TypeIdx) :
    ∀ (alternatives : List Pattern) (refutable : Bool) (st : BodyState) (base : Nat),
      base = (st.context.scopes.headD []).length → st.context.scopes ≠ [] →
        Ends st (bindAlternatives p module base type alternatives refutable) fun _ v =>
          Binding st (collectAllIdents alternatives) v
  | [], _, st, _, _, hs => by
    unfold bindAlternatives collectAllIdents
    exact binding_pure _ hs
  | pattern :: rest, refutable, st, base, hbase, hs => by
    rw [bindAlternatives_cons]
    unfold collectAllIdents
    subst hbase
    refine .bind ((alternative_binding (contextRule.bindPattern module pattern type) hs
      (bindPattern_binding module pattern type st hs) pattern.span).mono fun part u hu => ?_)
    obtain ⟨hu, hcontext⟩ := hu
    refine (bindAlternatives_binding module type rest _ u _ (by rw [hcontext]) hu.scopes).mono ?_
    intro _ v hv
    exact hu.trans hv

end

/-! ## Or-patterns whose alternatives bind without error -/

/-- Each later alternative is bound without a diagnostic, in the state in which the loop meets it. -/
def QuietAlternatives (p : Package) (module base : Nat) (type : TypeIdx) :
    List Pattern → BodyState → Prop
  | [], _ => True
  | pattern :: rest, st =>
    (∀ part u, bindPattern p module pattern type st = .ok (part, u) →
      u.check.bag = st.check.bag) ∧
    ∀ part u, alternative base pattern.span (bindPattern p module pattern type) st = .ok (part, u) →
      QuietAlternatives p module base type rest u

/-- The first alternative is, and then the later ones are. -/
def QuietOr (p : Package) (module : Nat) (type : TypeIdx) (first : Pattern) (rest : List Pattern)
    (st : BodyState) : Prop :=
  ∀ refutable u, bindPattern p module first type st = .ok (refutable, u) →
    u.check.bag = st.check.bag ∧
      QuietAlternatives p module (u.context.scopes.headD []).length type rest u

/-- What the comparison of the later alternatives reports. -/
def mismatches (rest : List Pattern) : DiagBag :=
  rest.flatMap fun pattern => (collectPatternIdents pattern).map fun _ => mismatch pattern.span

theorem mismatches_cons (pattern : Pattern) (rest : List Pattern) :
    mismatches (pattern :: rest) =
      (collectPatternIdents pattern).map (fun _ => mismatch pattern.span) ++ mismatches rest := rfl

/-- Every name of a later alternative is reported, and none is left in scope. -/
theorem bindAlternatives_run (module : Nat) (type : TypeIdx) :
    ∀ (alternatives : List Pattern) (refutable : Bool) (st : BodyState),
      st.context.scopes ≠ [] →
      QuietAlternatives p module (st.context.scopes.headD []).length type alternatives st →
      Ends st (bindAlternatives p module (st.context.scopes.headD []).length type alternatives
        refutable) fun _ v => v.context = st.context ∧
          v.check.bag = st.check.bag ++ mismatches alternatives
  | [], _, st, _, _ => by
    unfold bindAlternatives
    exact .pure ⟨rfl, (List.append_nil _).symm⟩
  | pattern :: rest, refutable, st, hs, hquiet => by
    rw [bindAlternatives_cons]
    refine .bind fun part v hrun => ?_
    obtain ⟨u, new, hu, hnew, hv⟩ := alternative_cases (contextRule.bindPattern module pattern type)
      hs hrun
    have hbag := hquiet.1 part u hu
    obtain ⟨new', hnew', hnames⟩ := (bindPattern_binding module pattern type st hs part u hu).named hbag
    obtain rfl : new' = new := by
      have h := hnew'.symm.trans hnew
      simpa [Context.declared, Context.withInnermost] using h
    have hcontext : v.context = st.context := by rw [hv]
    have hvbag : v.check.bag = st.check.bag ++ new'.map fun _ => mismatch pattern.span := by
      rw [hv, ← hbag]
      rfl
    have hrest := hquiet.2 part v hrun
    rw [← hcontext] at hrest ⊢
    refine (bindAlternatives_run module type rest _ v (by rw [hcontext]; exact hs) hrest).mono ?_
    rintro _ w ⟨hw, hwbag⟩
    refine ⟨hw, ?_⟩
    rw [hwbag, hvbag, List.append_assoc, mismatches_cons, ← hnames, List.map_map]
    rfl

/-- Two patterns bind the same names. -/
def SameNames (a b : Pattern) : Prop :=
  ∀ name, name ∈ collectPatternIdents a ↔ name ∈ collectPatternIdents b

/-- A diagnostic that the names differ was added. -/
def ReportsMismatch (st st' : BodyState) : Prop :=
  ∃ span, mismatch span ∈ st'.check.bag.drop st.check.bag.length

/-- The locals that there are more have the names of the pattern. -/
def Declares (pattern : Pattern) (st st' : BodyState) : Prop :=
  ∃ new, st'.context = st.context.declared new ∧ new.map (·.name) = collectPatternIdents pattern

/-- The comparison that the source announces: a report exactly where two alternatives differ, and
otherwise the locals of the first one. -/
def ComparesNames (alternatives : List Pattern) (first : Pattern) (st st' : BodyState) : Prop :=
  (ReportsMismatch st st' ↔ ∃ a ∈ alternatives, ∃ b ∈ alternatives, ¬ SameNames a b) ∧
    ((∀ a ∈ alternatives, ∀ b ∈ alternatives, SameNames a b) → Declares first st st')

theorem mem_mismatches {rest : List Pattern} :
    (∃ span, mismatch span ∈ mismatches rest) ↔ ∃ b ∈ rest, collectPatternIdents b ≠ [] := by
  constructor
  · rintro ⟨span, hspan⟩
    obtain ⟨b, hb, hmem⟩ := List.mem_flatMap.1 hspan
    refine ⟨b, hb, fun hnil => ?_⟩
    rw [hnil] at hmem
    cases hmem
  · rintro ⟨b, hb, hne⟩
    obtain ⟨name, hname⟩ := List.exists_mem_of_ne_nil _ hne
    exact ⟨b.span, List.mem_flatMap.2 ⟨b, hb, List.mem_map.2 ⟨name, hname, rfl⟩⟩⟩

/-- **Or-patterns are compared by name exactly where nothing is bound or the names differ**: with
one alternative, without any names, or where a later alternative binds a name and two of them
differ. -/
theorem orPattern_iff {module : Nat} {span : Span} {first : Pattern} {rest : List Pattern}
    {type : TypeIdx} {st st' : BodyState} {refutable : Bool} (hs : st.context.scopes ≠ [])
    (hquiet : QuietOr p module type first rest st)
    (hrun : bindPattern p module (.or span (first :: rest)) type st = .ok (refutable, st')) :
    ComparesNames (first :: rest) first st st' ↔
      rest = [] ∨ (∀ a ∈ first :: rest, collectPatternIdents a = []) ∨
        (∃ b ∈ rest, collectPatternIdents b ≠ []) ∧
          ∃ a ∈ first :: rest, ∃ b ∈ first :: rest, ¬ SameNames a b := by
  unfold bindPattern at hrun
  obtain ⟨part, u, hfirst, hrun⟩ := bind_ok.1 hrun
  obtain ⟨hbag, halternatives⟩ := hquiet part u hfirst
  have hbinding := bindPattern_binding module first type st hs part u hfirst
  rw [bind_of_ok (innermost_eq hbinding.scopes)] at hrun
  obtain ⟨hcontext, hreports⟩ :=
    bindAlternatives_run module type rest part u hbinding.scopes halternatives _ st' hrun
  have hdeclares : Declares first st st' := by
    obtain ⟨new, hnew, hnames⟩ := hbinding.named hbag
    exact ⟨new, hcontext.trans hnew, hnames⟩
  have hreported : ReportsMismatch st st' ↔ ∃ b ∈ rest, collectPatternIdents b ≠ [] := by
    rw [← mem_mismatches, ReportsMismatch, hreports, hbag, List.drop_left]
  rw [ComparesNames, hreported]
  constructor
  · rintro ⟨hiff, -⟩
    by_cases hlater : ∃ b ∈ rest, collectPatternIdents b ≠ []
    · exact .inr (.inr ⟨hlater, hiff.1 hlater⟩)
    · have hnone (b : Pattern) (hb : b ∈ rest) : collectPatternIdents b = [] := by
        by_contra hne
        exact hlater ⟨b, hb, hne⟩
      rcases rest with _ | ⟨second, rest⟩
      · exact .inl rfl
      · refine .inr (.inl (List.forall_mem_cons.2 ⟨?_, hnone⟩))
        by_contra hne
        obtain ⟨name, hname⟩ := List.exists_mem_of_ne_nil _ hne
        refine hlater (hiff.2 ⟨first, List.mem_cons_self .., second, by simp, fun hsame => ?_⟩)
        have hsecond := (hsame name).1 hname
        rw [hnone second (List.mem_cons_self ..)] at hsecond
        cases hsecond
  · intro hcond
    refine ⟨⟨fun hlater => ?_, fun hdiffer => ?_⟩, fun _ => hdeclares⟩
    · rcases hcond with rfl | hnone | ⟨_, hdiffer⟩
      · obtain ⟨b, hb, _⟩ := hlater
        cases hb
      · obtain ⟨b, hb, hne⟩ := hlater
        exact absurd (hnone b (List.mem_cons_of_mem _ hb)) hne
      · exact hdiffer
    · obtain ⟨a, ha, b, hb, hne⟩ := hdiffer
      rcases hcond with rfl | hnone | ⟨hlater, _⟩
      · cases List.mem_singleton.1 ha
        cases List.mem_singleton.1 hb
        exact absurd (fun name => Iff.rfl) hne
      · refine absurd (fun name => ?_) hne
        rw [hnone a ha, hnone b hb]
      · exact hlater

/-- A pattern that is a name. -/
def named (name : String) : Pattern := .ident default ⟨name, default⟩

/-- A state with one empty scope. -/
def BodyState.inScope : BodyState :=
  { BodyState.start with context := { BodyState.start.context with scopes := [[]] } }

theorem named_quiet (p : Package) (module : Nat) (type : TypeIdx) (first second : String) :
    QuietOr p module type (named first) [named second] .inScope := by
  intro refutable u hfirst
  cases hfirst
  refine ⟨rfl, ?_, fun part v _ => trivial⟩
  intro part v hsecond
  cases hsecond
  rfl

theorem named_run (first second : String) : ∃ refutable st',
    bindPattern (onlyRoot []) 0 (.or default [named first, named second]) (primitiveIdx .i32)
      .inScope = .ok (refutable, st') ∧ st'.check.bag = [mismatch default] :=
  ⟨_, _, rfl, rfl⟩

/-- `x | y` is reported, as it should be. -/
theorem otherName_reported : ∃ refutable st',
    bindPattern (onlyRoot []) 0 (.or default [named "x", named "y"]) (primitiveIdx .i32) .inScope =
      .ok (refutable, st') ∧
    ComparesNames [named "x", named "y"] (named "x") .inScope st' := by
  obtain ⟨refutable, st', hrun, _⟩ := named_run "x" "y"
  refine ⟨refutable, st', hrun, ?_⟩
  refine (orPattern_iff (List.cons_ne_nil _ _) (named_quiet _ _ _ _ _) hrun).2 (.inr (.inr ?_))
  refine ⟨⟨named "y", by simp, by decide⟩, named "x", by simp, named "y", by simp, fun hsame => ?_⟩
  exact absurd ((hsame "x").1 (by decide)) (by decide)

/-- `fn f(a: (i32, i32)) { match a { (x, 1) | (1, x) => {}, _ => {} } }` -/
def sameNames : Package :=
  let i32 : Ty := .primitive default .i32
  let pair (a b : Pattern) : Pattern := .tuple default none [a, b]
  let lit : Pattern := .literal default ⟨.integer, default, "1"⟩
  let empty : Expr := .block default (.mk default [] none)
  onlyRoot [.fn (fnOf "f" [⟨named "a", .tuple default [i32, i32]⟩] none (some
    (.matchExpr default (.path default (pathTo ["a"]))
      [.mk (.or default [pair (named "x") lit, pair lit (named "x")]) empty,
        .mk (.wildcard default) empty])))]

/-- `x | x` is reported too, and so is `(x, 1) | (1, x)`. -/
theorem sameName_reported : (∃ refutable st',
      bindPattern (onlyRoot []) 0 (.or default [named "x", named "x"]) (primitiveIdx .i32) .inScope =
        .ok (refutable, st') ∧
      QuietOr (onlyRoot []) 0 (primitiveIdx .i32) (named "x") [named "x"] .inScope ∧
      ¬ ComparesNames [named "x", named "x"] (named "x") .inScope st') ∧
    reported (checkPackage sameNames .start) =
      some [(kAnalyzerInvalidOperation, "or-pattern alternatives must bind the same names")] := by
  refine ⟨?_, by decide +kernel⟩
  obtain ⟨refutable, st', hrun, hbag⟩ := named_run "x" "x"
  refine ⟨refutable, st', hrun, named_quiet _ _ _ _ _, fun hcompares => ?_⟩
  have hreports : ReportsMismatch .inScope st' := by
    rw [ReportsMismatch, hbag]
    exact ⟨default, List.mem_singleton_self _⟩
  obtain ⟨a, ha, b, hb, hne⟩ := hcompares.1.1 hreports
  simp only [List.mem_cons, List.not_mem_nil, or_false, or_self] at ha hb
  rw [ha, hb] at hne
  exact hne fun name => Iff.rfl

end Alcy.Analyzer.Bodies
