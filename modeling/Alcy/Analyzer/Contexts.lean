import Alcy.Analyzer.ScopeRule

/-! # Body checking restores its context

Expressions and blocks leave the scopes, the loops and the function as they were, statements and
patterns add locals to the innermost scope only, and `scopes.back()` is never taken of an empty
stack.
-/
namespace Alcy.Analyzer.Bodies
open Alcy.Ast Alcy.Diag Alcy.Ir Alcy.Analyzer.Types
open Alcy.Lib.Contracts

/-! ## Contexts with more locals -/

/-- The context with more locals in the innermost scope. -/
def Context.declared (context : Context) (new : List Local) : Context :=
  context.withInnermost (context.scopes.headD [] ++ new)

theorem Context.declared_nil {context : Context} (h : context.scopes ≠ []) :
    context.declared [] = context := by
  obtain ⟨scopes, loopDepth, inFn, fnRet⟩ := context
  cases scopes with
  | nil => exact absurd rfl h
  | cons scope rest => simp [Context.declared, Context.withInnermost]

theorem Context.declared_declared (context : Context) (new more : List Local) :
    (context.declared new).declared more = context.declared (new ++ more) := by
  simp [Context.declared, Context.withInnermost]

theorem Context.declared_scopes (context : Context) (new : List Local) :
    (context.declared new).scopes ≠ [] := List.cons_ne_nil _ _

/-! ## The contracts -/

def emptied (fault : Fault) : Prop := fault = .emptyScopes

/-- Of programs that give their scopes back. -/
def restoring : Contract BodyState Fault where
  inv _ := True
  bad := emptied
  rel st st' := st'.context = st.context
  refl _ _ := rfl
  trans _ h h' := h'.trans h
  stable _ _ := trivial

/-- Of programs that may declare locals. -/
def declaring : Contract BodyState Fault where
  inv st := st.context.scopes ≠ []
  bad := emptied
  rel st st' := ∃ new, st'.context = st.context.declared new
  refl _ hs := ⟨[], (Context.declared_nil hs).symm⟩
  trans _ h h' := by
    obtain ⟨new, h⟩ := h
    obtain ⟨more, h'⟩ := h'
    exact ⟨new ++ more, by rw [h', h, Context.declared_declared]⟩
  stable _ h := by
    obtain ⟨new, h⟩ := h
    rw [h]
    exact Context.declared_scopes _ _

/-- Of programs that run between the bodies. -/
def balanced : Contract BodyState Fault where
  inv _ := True
  bad := emptied
  rel st st' := st'.context.scopes = st.context.scopes
  refl _ _ := rfl
  trans _ h h' := h'.trans h
  stable _ _ := trivial

/-- A step of the first half knows nothing of the context. -/
theorem check_keeps {α : Type} {m : CheckM α} : Keeps restoring (check m) where
  fails st e _ h := by
    unfold check at h
    split at h <;> cases h
    intro he
    cases he
  ends st a st' _ h := by
    unfold check at h
    split at h <;> cases h
    rfl

theorem keeps_declaring {α : Type} {m : BodyM α} (h : Keeps restoring m) :
    Keeps declaring m where
  fails st e _ hm := h.fails st e trivial hm
  ends st a st' hs hm := ⟨[], (h.ends st a st' trivial hm).trans (Context.declared_nil hs).symm⟩

theorem keeps_balanced {α : Type} {m : BodyM α} (h : Keeps restoring m) : Keeps balanced m where
  fails st e _ hm := h.fails st e trivial hm
  ends st a st' _ hm := congrArg Context.scopes (h.ends st a st' trivial hm)

/-- A stack that is not empty has an innermost scope. -/
theorem innermost_eq {st : BodyState} (hs : st.context.scopes ≠ []) :
    innermost st = .ok (st.context.scopes.headD [], st) := by
  unfold innermost
  split
  · next h => exact absurd h hs
  · next scope rest h => rw [h, List.headD_cons]

theorem innermost_keeps : Keeps declaring innermost :=
  .of_ok fun st hs => ⟨_, st, innermost_eq hs, declaring.refl st hs⟩

theorem declare_keeps (new : Local) : Keeps declaring (declare new) :=
  .of_ok fun st hs => ⟨(), { st with context := st.context.declared [new] },
    (bind_of_ok (innermost_eq hs)).trans rfl, [new], rfl⟩

/-- What is declared after the mark is erased again. -/
theorem eraseFrom_eq {st st' : BodyState} {new : List Local} (hs : st.context.scopes ≠ [])
    (h : st'.context = st.context.declared new) :
    eraseFrom (st.context.scopes.headD []).length st' =
      .ok ((), { st' with context := st.context }) := by
  have hs' : st'.context.scopes ≠ [] := by
    rw [h]
    exact Context.declared_scopes _ _
  refine (bind_of_ok (innermost_eq hs')).trans ?_
  have hcontext : st'.context.withInnermost
      ((st'.context.scopes.headD []).take (st.context.scopes.headD []).length) = st.context := by
    rw [h]
    conv_rhs => rw [← Context.declared_nil hs]
    simp [Context.declared, Context.withInnermost]
  show Except.ok ((), { st' with context := st'.context.withInnermost _ }) = _
  rw [hcontext]

theorem compareNames_keeps (base mark : Nat) (span : Span) :
    Keeps declaring (compareNames base mark span) := by
  refine innermost_keeps.bind fun scope => ?_
  generalize scope.drop mark = later
  induction later with
  | nil => exact .pure ()
  | cons entry later ih =>
    refine Keeps.bind ?_ fun _ => ih
    dsimp only
    split
    · exact .pure ()
    · exact keeps_declaring check_keeps

theorem alternative_keeps {α : Type} {m : BodyM α} (base : Nat) (span : Span)
    (h : Keeps declaring m) : Keeps declaring (alternative base span m) := by
  have hcompared (mark : Nat) : Keeps declaring (m >>= fun a =>
      compareNames base mark span >>= fun _ => pure a) :=
    h.bind fun a => (compareNames_keeps base mark span).bind fun _ => .pure a
  have hrun (st : BodyState) (hs : st.context.scopes ≠ []) : alternative base span m st =
      ((m >>= fun a => compareNames base (st.context.scopes.headD []).length span >>= fun _ =>
        pure a) >>= fun a => eraseFrom (st.context.scopes.headD []).length >>= fun _ =>
          pure a) st := by
    simp only [alternative, bind_assoc, pure_bind]
    exact bind_of_ok (innermost_eq hs)
  constructor
  · intro st e hs he
    rw [hrun st hs] at he
    rcases bind_cases _ _ st with ⟨e', hfail, he'⟩ | ⟨a, st', hok, he'⟩ <;> rw [he'] at he
    · cases he
      exact (hcompared _).fails st e hs hfail
    · obtain ⟨new, hnew⟩ := (hcompared _).ends st a st' hs hok
      rw [bind_of_ok (eraseFrom_eq hs hnew)] at he
      cases he
  · intro st b st'' hs he
    rw [hrun st hs] at he
    obtain ⟨a, st', hok, he⟩ := bind_ok.1 he
    obtain ⟨new, hnew⟩ := (hcompared _).ends st a st' hs hok
    rw [bind_of_ok (eraseFrom_eq hs hnew)] at he
    cases he
    exact declaring.refl st hs

/-- The scope that a program runs in is gone afterwards, with all it declared. -/
theorem inScope_keeps {α : Type} {m : BodyM α} (h : Keeps declaring m) :
    Keeps restoring (inScope m) := by
  have hrun (st : BodyState) : inScope m st = (m >>= fun a => popScope >>= fun _ => pure a)
      { st with context := { st.context with scopes := [] :: st.context.scopes } } := rfl
  have hinv (st : BodyState) : declaring.inv
      { st with context := { st.context with scopes := [] :: st.context.scopes } } :=
    List.cons_ne_nil _ _
  constructor
  · intro st e _ he
    rw [hrun] at he
    rcases bind_cases _ _ _ with ⟨e', hfail, he'⟩ | ⟨a, st', hok, he'⟩ <;> rw [he'] at he
    · cases he
      exact h.fails _ e (hinv st) hfail
    · cases he
  · intro st b st'' _ he
    rw [hrun] at he
    obtain ⟨a, st', hok, he⟩ := bind_ok.1 he
    obtain ⟨new, hnew⟩ := h.ends _ a st' (hinv st) hok
    cases he
    show { st'.context with scopes := st'.context.scopes.tail } = st.context
    rw [hnew]
    rfl

theorem inLoop_keeps {body : BlockOperand}
    (h : Keeps restoring (body (some (primitiveIdx .void)))) : Keeps restoring (inLoop body) := by
  have hrun (st : BodyState) : inLoop body st = (body (some (primitiveIdx .void)) >>= fun _ =>
      modifyContext fun context => { context with loopDepth := context.loopDepth - 1 })
      { st with context := { st.context with loopDepth := st.context.loopDepth + 1 } } := rfl
  constructor
  · intro st e _ he
    rw [hrun] at he
    rcases bind_cases _ _ _ with ⟨e', hfail, he'⟩ | ⟨a, st', hok, he'⟩ <;> rw [he'] at he
    · cases he
      exact h.fails _ e trivial hfail
    · cases he
  · intro st b st'' _ he
    rw [hrun] at he
    obtain ⟨a, st', hok, he⟩ := bind_ok.1 he
    have hcontext := h.ends _ a st' trivial hok
    cases he
    show { st'.context with loopDepth := st'.context.loopDepth - 1 } = st.context
    rw [hcontext]
    show { st.context with loopDepth := st.context.loopDepth + 1 - 1 } = st.context
    rw [UInt32.add_sub_cancel]

/-- The history is no part of the context. -/
theorem unify_keeps {expected actual : TypeIdx} {span : Span} {what : String}
    (h : Keeps restoring (unified expected actual span what)) :
    Keeps restoring (unify expected actual span what) :=
  Keeps.get.bind fun _ => h.bind fun _ => (Keeps.modify fun _ _ => rfl).bind fun _ => .pure _

/-- A program that ends by giving its scope back. -/
theorem popped_keeps {α : Type} {m : BodyM α} {f g : Context → Context}
    (hf : ∀ context, (f context).scopes = [] :: context.scopes)
    (hg : ∀ context, (g context).scopes = context.scopes.tail) (h : Keeps declaring m) :
    Keeps balanced (modifyContext f >>= fun _ => m >>= fun _ => modifyContext g) := by
  have hinv (st : BodyState) : declaring.inv { st with context := f st.context } := by
    show (f st.context).scopes ≠ []
    rw [hf]
    exact List.cons_ne_nil _ _
  have hrun (st : BodyState) : (modifyContext f >>= fun _ => m >>= fun _ => modifyContext g) st =
      (m >>= fun _ => modifyContext g) { st with context := f st.context } := rfl
  constructor
  · intro st e _ he
    rw [hrun] at he
    rcases bind_cases m (fun _ => modifyContext g) _ with ⟨e', hfail, he'⟩ | ⟨a, st', hok, he'⟩ <;>
      rw [he'] at he
    · cases he
      exact h.fails _ e (hinv st) hfail
    · cases he
  · intro st b st'' _ he
    rw [hrun] at he
    obtain ⟨a, st', hok, he⟩ := bind_ok.1 he
    obtain ⟨new, hnew⟩ := h.ends _ a st' (hinv st) hok
    cases he
    show (g st'.context).scopes = st.context.scopes
    rw [hg, hnew]
    show (f st.context).scopes.tail = st.context.scopes
    rw [hf, List.tail_cons]

/-- **The contracts are a discipline of the body checker.** -/
theorem contextRule : PackageRule (fun _ => Keeps restoring) (fun _ => Keeps declaring)
    (fun _ => Keeps balanced) where
  expr := ⟨.pure, .bind⟩
  stmt := ⟨.pure, .bind⟩
  weaken h := keeps_declaring h
  get := .get
  check _ := check_keeps
  record _ _ _ _ h := unify_keeps h
  innermost := innermost_keeps
  declare := declare_keeps
  alternative := alternative_keeps
  inScope := inScope_keeps
  inLoop := inLoop_keeps
  item := ⟨.pure, .bind⟩
  lift h := keeps_balanced h
  initializer h := popped_keeps
    (f := fun context => { context with inFn := false, scopes := [] :: context.scopes })
    (g := fun context => { context with scopes := context.scopes.tail })
    (fun _ => rfl) (fun _ => rfl) h
  function ret h := popped_keeps
    (f := fun context =>
      { context with fnRet := ret, inFn := true, loopDepth := 0, scopes := [] :: context.scopes })
    (g := fun context => { context with inFn := false, scopes := context.scopes.tail })
    (fun _ => rfl) (fun _ => rfl) h

/-! ## Runs -/

variable (p : Package)

/-- The scopes of a package's run are never empty where the last one is taken. -/
theorem checkPackage_keeps : Keeps balanced (checkPackage p) :=
  ((keeps_balanced check_keeps).bind fun _ => keeps_balanced check_keeps).bind fun _ =>
    (contextRule.checkBodies (p := p)).bind fun _ => keeps_balanced check_keeps

/-- **Body checking restores its context.** Expressions and blocks leave the scopes, the loop depth
and the function as on entry, from any state and with any diagnostics on the way; statements and
patterns add locals to the innermost scope and nothing else; and no run of the checker takes the
last of no scopes. -/
theorem bodies_restore :
    (∀ module e expected st t st', checkExpr p module e expected st = .ok (t, st') →
      st'.context = st.context) ∧
    (∀ module block expected st t st', blockOperand p module block expected st = .ok (t, st') →
      st'.context = st.context) ∧
    (∀ module stmt st st', st.context.scopes ≠ [] → checkStmt p module stmt st = .ok ((), st') →
      ∃ new, st'.context = st.context.declared new) ∧
    (∀ module pattern type st refutable st', st.context.scopes ≠ [] →
      bindPattern p module pattern type st = .ok (refutable, st') →
      ∃ new, st'.context = st.context.declared new) ∧
    (∀ module e expected st, checkExpr p module e expected st ≠ .error .emptyScopes) ∧
    checkPackage p .start ≠ .error .emptyScopes := by
  refine ⟨?_, ?_, ?_, ?_, ?_, ?_⟩
  · intro module e expected st t st' h
    exact (contextRule.checkExpr module e expected).ends st t st' trivial h
  · intro module block expected st t st' h
    exact (contextRule.blockOperand module block expected).ends st t st' trivial h
  · intro module stmt st st' hs h
    exact (contextRule.checkStmt module stmt).ends st () st' hs h
  · intro module pattern type st refutable st' hs h
    exact (contextRule.bindPattern module pattern type).ends st refutable st' hs h
  · intro module e expected st h
    exact (contextRule.checkExpr module e expected).fails st _ trivial h rfl
  · intro h
    exact (checkPackage_keeps p).fails .start _ trivial h rfl

end Alcy.Analyzer.Bodies
