import Alcy.Analyzer.Exprs
import Alcy.Analyzer.Onward

/-! # The induction rule of the body checker

A property of programs holds of `check_expr` on every expression when it holds of the few steps that
touch the state and is inherited by composed programs. There are two properties at once: one of the
programs that give their scopes back, and a weaker one of those that may declare locals.
-/
namespace Alcy.Analyzer.Bodies
open Alcy.Ast Alcy.Diag Alcy.Ir Alcy.Analyzer.Types
open Alcy.Lib.Contracts (Leaves)

/-! ## Single steps -/

theorem check_ok {α : Type} {m : CheckM α} {a : α} {st st' : BodyState}
    (h : check m st = .ok (a, st')) :
    ∃ checked, m st.check = some (a, checked) ∧ st' = { st with check := checked } := by
  unfold check at h
  split at h
  · cases h
  · next hm =>
    cases h
    exact ⟨_, hm, rfl⟩

theorem read_eq {α : Type} {f : Storage → Option α} {a : α} {st : BodyState}
    (h : f st.check.table.storage = some a) : read f st = .ok (a, st) := by
  have hm : (f st.check.table.storage).map (fun a => (a, st.check)) = some (a, st.check) := by
    rw [h]
    rfl
  unfold read check
  dsimp only
  rw [hm]

/-- Reading changes nothing. -/
theorem read_ok {α : Type} {f : Storage → Option α} {a : α} {st st' : BodyState}
    (h : read f st = .ok (a, st')) : f st.check.table.storage = some a ∧ st' = st := by
  obtain ⟨checked, hm, rfl⟩ := check_ok h
  obtain ⟨b, hb, hpair⟩ := Option.map_eq_some_iff.1 hm
  cases hpair
  exact ⟨hb, rfl⟩

/-! ## Disciplines -/

/-- Composed programs inherit the property. -/
structure Closed (K : (α : Type) → BodyM α → Prop) : Prop where
  pure : ∀ {α : Type} (a : α), K α (pure a)
  bind : ∀ {α β : Type} {m : BodyM α} {k : α → BodyM β}, K α m → (∀ a, K β (k a)) → K β (m >>= k)

/-- A later alternative of an or-pattern: what it declares is compared and erased. -/
def alternative {α : Type} (base : Nat) (span : Span) (m : BodyM α) : BodyM α := do
  let mark := (← innermost).length
  let a ← m
  compareNames base mark span
  eraseFrom mark
  return a

theorem bindAlternatives_cons (p : Package) (module base : Nat) (type : TypeIdx) (pattern : Pattern)
    (rest : List Pattern) (refutable : Bool) :
    bindAlternatives p module base type (pattern :: rest) refutable =
      alternative base pattern.span (bindPattern p module pattern type) >>= fun part =>
        bindAlternatives p module base type rest (part || refutable) := by
  rw [bindAlternatives, alternative]
  simp only [bind_assoc, pure_bind]

/-- A program in a scope of its own. -/
def inScope {α : Type} (m : BodyM α) : BodyM α := do
  pushScope
  let a ← m
  popScope
  return a

/-- `E` of programs that leave the context as it was, `D` of programs that may declare locals. -/
structure Discipline (E D : (α : Type) → BodyM α → Prop) : Prop where
  expr : Closed E
  stmt : Closed D
  weaken : ∀ {α : Type} {m : BodyM α}, E α m → D α m
  get : E BodyState get
  check : ∀ {α : Type} {m : CheckM α}, Leaves Onward m → E α (check m)
  record : ∀ (expected actual : TypeIdx) (span : Span) (what : String),
    E TypeIdx (unified expected actual span what) → E TypeIdx (unify expected actual span what)
  innermost : D (List Local) innermost
  declare : ∀ new, D Unit (declare new)
  alternative : ∀ {α : Type} {m : BodyM α} (base : Nat) (span : Span), D α m →
    D α (alternative base span m)
  inScope : ∀ {α : Type} {m : BodyM α}, D α m → E α (inScope m)
  inLoop : ∀ {body : BlockOperand}, E TypeIdx (body (some (primitiveIdx .void))) →
    E Unit (inLoop body)

namespace Closed

variable {K : (α : Type) → BodyM α → Prop} (h : Closed K)
include h

theorem forM {κ : Type} {f : κ → BodyM Unit} {l : List κ} (hf : ∀ x ∈ l, K Unit (f x)) :
    K Unit (l.forM f) := by
  induction l with
  | nil => exact h.pure ()
  | cons x l ih =>
    exact h.bind (hf x (List.mem_cons_self ..)) fun _ => ih fun y hy =>
      hf y (List.mem_cons_of_mem _ hy)

theorem foldlM {κ β : Type} {f : β → κ → BodyM β} {l : List κ}
    (hf : ∀ x ∈ l, ∀ b, K β (f b x)) (b : β) : K β (l.foldlM f b) := by
  induction l generalizing b with
  | nil => exact h.pure b
  | cons x l ih =>
    rw [List.foldlM_cons]
    exact h.bind (hf x (List.mem_cons_self ..) b) fun b' =>
      ih (fun y hy => hf y (List.mem_cons_of_mem _ hy)) b'

end Closed

namespace Discipline

variable {E D : (α : Type) → BodyM α → Prop} (d : Discipline E D) {p : Package}
include d

/-! ## Reading and reporting -/

theorem pure {α : Type} (a : α) : E α (pure a) := d.expr.pure a

theorem bind {α β : Type} {m : BodyM α} {k : α → BodyM β} (hm : E α m) (hk : ∀ a, E β (k a)) :
    E β (m >>= k) := d.expr.bind hm hk

theorem read {α : Type} (f : Storage → Option α) : E α (read f) :=
  d.check (read_onward fun st => f st.table.storage)

theorem report (code : Nat) (span : Span) (message : String) : E Unit (report code span message) :=
  d.check report_onward

theorem warn (code : Nat) (span : Span) (message : String) : E Unit (warn code span message) :=
  d.check (.modify fun _ => ⟨rfl, List.prefix_append _ _, .refl _, rfl, fun _ _ h _ => h⟩)

theorem errorType : E TypeIdx errorType := d.check errorType_onward

theorem neverType : E TypeIdx neverType := d.check (build_onward neverType_extends)

theorem reject (code : Nat) (span : Span) (message : String) :
    E TypeIdx (reject code span message) :=
  d.bind (d.report code span message) fun _ => d.errorType

theorem tagOf (idx : TypeIdx) : E TypeTag (tagOf idx) := d.read _

theorem pointeeOf (idx : TypeIdx) : E TypeIdx (pointeeOf idx) := d.read _

theorem slot (range : IdxRange) (i : Nat) : E TypeIdx (slot range i) := d.read _

theorem isError (idx : TypeIdx) : E Bool (isError idx) := d.bind (d.tagOf idx) fun _ => d.pure _

theorem blessedFind (idx : TypeIdx) : E (Option BlessedEntry) (blessedFind idx) :=
  d.check (read_onward fun st => some (findBlessed st.table idx))

theorem intern (e : Nat) : E TypeIdx (Bodies.check (intern p e)) := d.check (intern_onward e)

theorem nominal (e : Nat) : E NominalEntry (Bodies.check (nominal e)) := d.check nominal_onward

/-! ## Types and literals -/

theorem unified (expected actual : TypeIdx) (span : Span) (what : String) :
    E TypeIdx (unified expected actual span what) := by
  refine d.bind (d.isError _) fun error => ?_
  split
  · exact d.pure _
  refine d.bind (d.isError _) fun error => ?_
  split
  · exact d.pure _
  refine d.bind (d.read _) fun same => ?_
  split
  · exact d.pure _
  refine d.bind (d.bind (d.tagOf _) fun _ => d.pure _) fun never => ?_
  split
  · exact d.pure _
  refine d.bind (d.bind (d.tagOf _) fun _ => d.pure _) fun never => ?_
  split
  · exact d.pure _
  · exact d.bind (d.tagOf _) fun _ => d.bind (d.tagOf _) fun _ => d.reject _ _ _

theorem unify (expected actual : TypeIdx) (span : Span) (what : String) :
    E TypeIdx (unify expected actual span what) :=
  d.record _ _ _ _ (d.unified _ _ _ _)

theorem unifyExpected (expected : Option TypeIdx) (actual : TypeIdx) (span : Span)
    (what : String) : E TypeIdx (unifyExpected expected actual span what) := by
  unfold Bodies.unifyExpected
  split
  · exact d.pure _
  · exact d.unify _ _ _ _

theorem bareNumber (fits : TypeTag → Bool) (tag : TypeTag) (expected : Option TypeIdx)
    (span : Span) (what : String) : E TypeIdx (bareNumber fits tag expected span what) := by
  unfold Bodies.bareNumber
  split
  · exact d.pure _
  · refine d.bind (d.tagOf _) fun _ => ?_
    split
    · exact d.pure _
    · exact d.unify _ _ _ _

theorem checkLiteral (lit : Literal) (expected : Option TypeIdx) :
    E TypeIdx (checkLiteral p lit expected) := by
  unfold Bodies.checkLiteral
  split
  · exact d.unifyExpected _ _ _ _
  · exact d.unifyExpected _ _ _ _
  · exact d.reject _ _ _
  · split
    · exact d.reject _ _ _
    · split
      · exact d.reject _ _ _
      · exact d.unifyExpected _ _ _ _
    · exact d.bareNumber _ _ _ _ _
  · split
    · exact d.reject _ _ _
    · split
      · exact d.reject _ _ _
      · exact d.unifyExpected _ _ _ _
    · exact d.bareNumber _ _ _ _ _

/-! ## Paths -/

theorem unresolved {α : Type} (span : Span) (message : String) :
    E (Option α) (unresolved span message) :=
  d.bind (d.report _ _ _) fun _ => d.pure _

theorem findVariant (module : Nat) (name : String) (span : Span) :
    E (Option VariantMatch) (findVariant p module name span) := by
  refine d.bind d.get fun st => ?_
  dsimp only
  split
  · exact d.pure _
  · exact d.pure _
  · exact d.bind (d.report _ _ _) fun _ => d.pure _

theorem variantDecl (found : VariantMatch) : E EnumVariant (variantDecl found) := by
  refine d.check fun st a st' h => ?_
  obtain ⟨entry, _, h⟩ := Option.bind_eq_some_iff.1 h
  split at h
  · cases h
  · obtain ⟨_, _, hr⟩ := Option.map_eq_some_iff.1 h
    cases hr
    exact Std.Refl.refl st

theorem variantValue (found : VariantMatch) : E PathValue (variantValue p found) := by
  refine d.bind (d.intern _) fun type => d.bind (d.variantDecl found) fun variant => ?_
  split
  · exact d.pure _
  · exact d.pure _

theorem walkPrefix (module : Nat) (path : Path) : E (Option Nat) (walkPrefix p module path) := by
  unfold Bodies.walkPrefix
  split
  · exact d.bind (d.report _ _ _) fun _ => d.pure _
  · exact d.pure _

theorem resolveOther (module : Nat) (path : Path) (name : String) :
    E (Option PathValue) (resolveOther p module path name) := by
  refine d.bind (d.findVariant _ _ _) fun found => ?_
  split
  · exact d.bind (d.variantValue _) fun _ => d.pure _
  · refine d.bind d.get fun st => ?_
    split
    · exact d.pure _
    · split
      · exact d.pure _
      · exact d.unresolved _ _

theorem resolveName (module : Nat) (path : Path) (name : String) :
    E (Option PathValue) (resolveName p module path name) := by
  refine d.bind d.get fun st => ?_
  split
  · exact d.pure _
  · split
    · exact d.pure _
    · exact d.resolveOther _ _ _

theorem resolveInModule (variants : Bool) (module : Nat) (path : Path) (member : String) :
    E (Option PathValue) (resolveInModule p variants module path member) := by
  refine d.bind (d.walkPrefix _ _) fun target => ?_
  split
  · exact d.pure _
  · refine d.bind d.get fun st => ?_
    split
    · exact d.pure _
    · split
      · exact d.bind (d.variantValue _) fun _ => d.pure _
      · exact d.unresolved _ _

theorem assocFunction (nominal : Option Nat) (member : String) :
    E (Option MethodInfo) (assocFunction p nominal member) := by
  unfold Bodies.assocFunction
  split
  · exact d.pure _
  · exact d.bind (d.intern _) fun self => d.bind d.get fun st => d.pure _

theorem resolveMember (module : Nat) (path : Path) (head member : String) :
    E (Option PathValue) (resolveMember p module path head member) := by
  refine d.bind d.get fun st => ?_
  dsimp only
  split
  · exact d.bind (d.variantValue _) fun _ => d.pure _
  · refine d.bind (d.assocFunction _ _) fun method => ?_
    split
    · exact d.pure _
    · refine d.bind d.get fun st => ?_
      split
      · exact d.pure _
      · exact d.unresolved _ _

theorem resolveValuePath (module : Nat) (path : Path) :
    E (Option PathValue) (resolveValuePath p module path) := by
  unfold Bodies.resolveValuePath
  split
  · exact d.pure _
  · exact d.resolveName _ _ _
  · split
    · exact d.resolveInModule _ _ _ _
    · exact d.resolveMember _ _ _ _
  · exact d.resolveInModule _ _ _ _

theorem patternVariant (found : VariantMatch) :
    E (Option PathValue) (patternVariant p found) :=
  d.bind (d.intern _) fun _ => d.pure _

theorem resolveVariantPath (module : Nat) (path : Path) :
    E (Option PathValue) (resolveVariantPath p module path) := by
  unfold Bodies.resolveVariantPath
  split
  · refine d.bind (d.findVariant _ _ _) fun found => ?_
    split
    · exact d.patternVariant _
    · exact d.pure _
  · split
    · refine d.bind (d.walkPrefix _ _) fun target => ?_
      split
      · exact d.pure _
      · refine d.bind d.get fun st => ?_
        split
        · exact d.patternVariant _
        · exact d.pure _
    · refine d.bind d.get fun st => ?_
      dsimp only
      split
      · exact d.patternVariant _
      · exact d.pure _
  · exact d.pure _

theorem declaredPayload (found : VariantMatch) :
    E (List TypeIdx) (declaredPayload p found) :=
  d.bind (d.nominal _) fun _ => d.bind (d.variantDecl found) fun _ =>
    d.check (resolveTypes_onward intern_onward _)

theorem variantPayloads (resolved : PathValue) (enumType : TypeIdx) (span : Span) :
    E (List TypeIdx) (variantPayloads p resolved enumType span) := by
  refine d.bind (d.isError _) fun error => ?_
  split
  · exact d.pure _
  · split
    · exact d.declaredPayload _
    · exact d.declaredPayload _
    · refine d.bind (d.blessedFind _) fun entry => ?_
      split
      · exact d.bind (d.report _ _ _) fun _ => d.pure _
      · exact d.read _
    · exact d.read _

theorem resolveStructPath (module : Nat) (path : Path) :
    E (Option Nat) (resolveStructPath p module path) := by
  unfold Bodies.resolveStructPath
  split
  · exact d.pure _
  · refine d.bind d.get fun st => ?_
    dsimp only
    split
    · exact d.pure _
    · exact d.unresolved _ _
  · refine d.bind (d.walkPrefix _ _) fun target => ?_
    split
    · exact d.pure _
    · refine d.bind d.get fun st => ?_
      dsimp only
      split
      · exact d.pure _
      · exact d.unresolved _ _

theorem structDecl (e : Nat) : E StructItem (structDecl e) := by
  refine d.check fun st a st' h => ?_
  obtain ⟨entry, _, h⟩ := Option.bind_eq_some_iff.1 h
  split at h <;> cases h
  exact Std.Refl.refl st

/-! ## Patterns -/

theorem bindErrorIdents (pattern : Pattern) : D Unit (bindErrorIdents pattern) :=
  d.stmt.forM fun _ _ => d.stmt.bind (d.weaken d.errorType) fun _ => d.declare _

theorem fittingPayload (span : Span) (arity : Nat) (type : TypeIdx) (resolved : PathValue) :
    E (Option (List TypeIdx)) (fittingPayload p span arity type resolved) := by
  refine d.bind (d.variantPayloads _ _ _) fun payloads => ?_
  split
  · exact d.pure _
  · exact d.bind (d.report _ _ _) fun _ => d.pure _

theorem variantPattern (module : Nat) (span : Span) (path : Path) (arity : Nat)
    (type : TypeIdx) :
    E (Option (List TypeIdx)) (variantPattern p module span path arity type) := by
  refine d.bind (d.resolveVariantPath _ _) fun resolved => ?_
  split
  · exact d.pure _
  · exact d.bind (d.unify _ _ _ _) fun _ => d.fittingPayload _ _ _ _
  · exact d.fittingPayload _ _ _ _
  · exact d.bind (d.report _ _ _) fun _ => d.pure _

theorem tuplePattern (span : Span) (arity : Nat) (type : TypeIdx) :
    E (Option (List TypeIdx)) (tuplePattern span arity type) := by
  refine d.bind (d.tagOf _) fun tag => ?_
  split
  · exact d.bind (d.check (build_onward (tupleType_extends _))) fun _ =>
      d.bind (d.unify _ _ _ _) fun _ => d.pure _
  · refine d.bind (d.read _) fun elements => ?_
    split
    · exact d.pure _
    · exact d.bind (d.report _ _ _) fun _ => d.pure _

theorem structPattern (module : Nat) (span : Span) (path : Path) (type : TypeIdx) :
    E (Option (StructItem × IdxRange)) (structPattern p module span path type) := by
  refine d.bind (d.resolveStructPath _ _) fun nominal => ?_
  split
  · exact d.pure _
  · refine d.bind (d.intern _) fun self => d.bind (d.unify _ _ _ _) fun _ => ?_
    refine d.bind (d.structDecl _) fun decl => d.bind (d.nominal _) fun entry => ?_
    exact d.bind (d.read _) fun fields => d.pure _

theorem refPattern (span : Span) (isMut : Bool) (type : TypeIdx) :
    E (Option TypeIdx) (refPattern span isMut type) := by
  refine d.bind (d.tagOf _) fun tag => ?_
  split
  · exact d.bind (d.report _ _ _) fun _ => d.pure _
  · exact d.bind (d.pointeeOf _) fun _ => d.pure _

mutual

/-- **Patterns only declare.** -/
theorem bindPattern (module : Nat) : ∀ (pattern : Pattern) (type : TypeIdx),
    D Bool (bindPattern p module pattern type)
  | .wildcard _, _ => by
    unfold Bodies.bindPattern
    exact d.stmt.pure _
  | .ident _ name, type => by
    unfold Bodies.bindPattern
    exact d.stmt.bind (d.declare _) fun _ => d.stmt.pure _
  | .mutIdent _ name, type => by
    unfold Bodies.bindPattern
    exact d.stmt.bind (d.declare _) fun _ => d.stmt.pure _
  | .literal _ value, type => by
    unfold Bodies.bindPattern
    exact d.stmt.bind (d.weaken (d.checkLiteral _ _)) fun _ => d.stmt.pure _
  | .tuple span (some path) elements, type => by
    unfold Bodies.bindPattern
    refine d.stmt.bind (d.weaken (d.variantPattern _ _ _ _ _)) fun payloads => ?_
    split
    · exact d.stmt.bind (d.bindErrorIdents _) fun _ => d.stmt.pure _
    · exact bindPayload module elements _ _
  | .tuple span none elements, type => by
    unfold Bodies.bindPattern
    refine d.stmt.bind (d.weaken (d.tuplePattern _ _ _)) fun types => ?_
    split
    · exact d.stmt.bind (d.bindErrorIdents _) fun _ => d.stmt.pure _
    · exact bindElements module elements _ _
  | .struct span path fields, type => by
    unfold Bodies.bindPattern
    refine d.stmt.bind (d.weaken (d.structPattern _ _ _ _)) fun found => ?_
    split
    · exact d.stmt.bind (d.bindErrorIdents _) fun _ => d.stmt.pure _
    · exact bindFields module _ _ fields _
  | .ref span isMut inner, type => by
    unfold Bodies.bindPattern
    refine d.stmt.bind (d.weaken (d.refPattern _ _ _)) fun pointee => ?_
    split
    · exact d.stmt.bind (d.bindErrorIdents _) fun _ => d.stmt.pure _
    · exact bindPattern module inner _
  | .or _ [], _ => by
    unfold Bodies.bindPattern
    exact d.stmt.pure _
  | .or _ (first :: rest), type => by
    unfold Bodies.bindPattern
    refine d.stmt.bind (bindPattern module first type) fun _ => ?_
    exact d.stmt.bind d.innermost fun _ => bindAlternatives module _ type rest _

theorem bindPayload (module : Nat) : ∀ (patterns : List Pattern) (types : List TypeIdx)
    (refutable : Bool), D Bool (bindPayload p module patterns types refutable)
  | [], _, _ => by
    unfold Bodies.bindPayload
    exact d.stmt.pure _
  | _ :: _, [], _ => by
    unfold Bodies.bindPayload
    exact d.stmt.pure _
  | pattern :: rest, type :: types, refutable => by
    unfold Bodies.bindPayload
    exact d.stmt.bind (bindPattern module pattern type) fun _ => bindPayload module rest types _

theorem bindElements (module : Nat) : ∀ (patterns : List Pattern) (types : List TypeIdx)
    (refutable : Bool), D Bool (bindElements p module patterns types refutable)
  | [], _, _ => by
    unfold Bodies.bindElements
    exact d.stmt.pure _
  | _ :: _, [], _ => by
    unfold Bodies.bindElements
    exact d.stmt.pure _
  | pattern :: rest, type :: types, refutable => by
    unfold Bodies.bindElements
    exact d.stmt.bind (bindPattern module pattern type) fun _ => bindElements module rest types _

theorem bindFields (module : Nat) (decl : StructItem) (types : IdxRange) :
    ∀ (fields : List (Ident × Pattern)) (refutable : Bool),
      D Bool (bindFields p module decl types fields refutable)
  | [], _ => by
    unfold Bodies.bindFields
    exact d.stmt.pure _
  | (name, pattern) :: rest, refutable => by
    unfold Bodies.bindFields
    split
    · refine d.stmt.bind (d.weaken (d.report _ _ _)) fun _ => ?_
      exact d.stmt.bind (d.bindErrorIdents _) fun _ => bindFields module decl types rest _
    · refine d.stmt.bind (d.weaken (d.slot _ _)) fun _ => ?_
      exact d.stmt.bind (bindPattern module pattern _) fun _ => bindFields module decl types rest _

theorem bindAlternatives (module base : Nat) (type : TypeIdx) :
    ∀ (alternatives : List Pattern) (refutable : Bool),
      D Bool (bindAlternatives p module base type alternatives refutable)
  | [], _ => by
    unfold Bodies.bindAlternatives
    exact d.stmt.pure _
  | pattern :: rest, refutable => by
    rw [bindAlternatives_cons]
    exact d.stmt.bind (d.alternative base pattern.span (bindPattern module pattern type)) fun _ =>
      bindAlternatives module base type rest _

end

end Discipline

end Alcy.Analyzer.Bodies
