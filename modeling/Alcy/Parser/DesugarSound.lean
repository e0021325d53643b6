import Alcy.Parser.DesugarPatterns

/-! # The pass preserves binding

One case for each node: what the pass does to it keeps the names in scope, and
the numberings of the node before and after agree. -/
namespace Alcy.Parser
open Alcy.Ast Alcy.Diag
open Scoping
open Desugar

theorem visitPath_state (path : Path) (s : Desugar) : (visitPath path s).2 = s := by
  unfold visitPath
  split
  · dsimp only
    split <;> rfl
  · rfl

/-- The numbering of a path does not change with its spelling. -/
theorem namePath_visitPath {path : Path} (hx : ∀ x ∈ pathNames path, Plain x) {s : Desugar}
    {R : Renaming} (hs : Tracks s R) {env env' : Env} (hal : Aligned R env env') :
    namePath env path = namePath env' (visitPath path s).1 := by
  obtain ⟨segments, span⟩ := path
  match segments with
  | [] => rfl
  | _ :: _ :: _ => rfl
  | [segment] =>
    have hspell := spell_renamed hal hs.spelled hs.distinct (hx segment.name (by simp [pathNames]))
    rw [← hs.lookup] at hspell
    have hpath : (visitPath ⟨[segment], span⟩ s).1 =
        ⟨[⟨s.lookup segment.name, segment.span⟩], span⟩ := by
      unfold visitPath
      dsimp only
      split
      · rfl
      · next h =>
        simp only [bne_iff_ne, ne_eq, Decidable.not_not] at h
        rw [h]
    rw [hpath]
    simp only [namePath, hspell]

theorem visitPath_keeps {path : Path} (hx : ∀ x ∈ pathNames path, Plain x) :
    Keeps 0 (visitPath path) (fun env => pure (namePath env path))
      fun path env => pure (namePath env path) := by
  refine fun R => ⟨fun s => ?_, fun s hs _ _ => ⟨?_, R, ?_, rfl, fun env env' hal => ?_⟩⟩
  · simp [visitPath_state]
  · simp [visitPath_state]
  · simpa [visitPath_state] using hs
  · exact .pure (namePath_visitPath hx hs hal)

/-- Names of a part are names of the whole. -/
theorem plain_left {a b : List String} (h : ∀ x ∈ a ++ b, Plain x) : ∀ x ∈ a, Plain x :=
  fun x hx => h x (List.mem_append_left b hx)

theorem plain_right {a b : List String} (h : ∀ x ∈ a ++ b, Plain x) : ∀ x ∈ b, Plain x :=
  fun x hx => h x (List.mem_append_right a hx)

mutual

theorem visitExpr_keeps : ∀ e : Expr, (∀ x ∈ exprNames e, Plain x) →
    Keeps (exprNames e).length (visitExpr e) (fun env => nameExpr env e) fun e env => nameExpr env e
  | .literal _ _, _ => keeps_pure (fun _ => rfl) fun _ => rfl
  | .path _ _, hx =>
    ((visitPath_keeps hx).map _ (fun _ => rfl) fun _ _ => rfl).mono (Nat.zero_le _)
  | .struct _ _ init base, hx =>
    ((visitFieldInits_keeps init (plain_left hx)).map₂ _ (visitOption_keeps base (plain_right hx))
      (fun _ => rfl) fun _ _ _ => rfl).mono (by simp [exprNames])
  | .tuple _ elements, hx => (visitExprs_keeps elements hx).map _ (fun _ => rfl) fun _ _ => rfl
  | .unary _ _ inner, hx => (visitExpr_keeps inner hx).map _ (fun _ => rfl) fun _ _ => rfl
  | .borrow _ _ inner, hx => (visitExpr_keeps inner hx).map _ (fun _ => rfl) fun _ _ => rfl
  | .binary _ _ lhs rhs, hx =>
    ((visitExpr_keeps lhs (plain_left hx)).map₂ _ (visitExpr_keeps rhs (plain_right hx))
      (fun _ => rfl) fun _ _ _ => rfl).mono (by simp [exprNames])
  | .cast span inner type, hx =>
    (visitExpr_keeps inner hx).map (fun inner => Expr.cast span inner type) (fun _ => rfl)
      fun _ _ => rfl
  | .call _ callee args, hx =>
    ((visitExpr_keeps callee (plain_left hx)).map₂ _ (visitExprs_keeps args (plain_right hx))
      (fun _ => rfl) fun _ _ _ => rfl).mono (by simp [exprNames])
  | .methodCall span receiver name args, hx =>
    ((visitExpr_keeps receiver (plain_left hx)).map₂
      (fun receiver args => Expr.methodCall span receiver name args)
      (visitExprs_keeps args (plain_right hx)) (fun _ => rfl) fun _ _ _ => rfl).mono
      (by simp [exprNames])
  | .field span receiver name, hx =>
    (visitExpr_keeps receiver hx).map (fun receiver => Expr.field span receiver name) (fun _ => rfl)
      fun _ _ => rfl
  | .index _ receiver index, hx =>
    ((visitExpr_keeps receiver (plain_left hx)).map₂ _ (visitExpr_keeps index (plain_right hx))
      (fun _ => rfl) fun _ _ _ => rfl).mono (by simp [exprNames])
  | .question _ inner, hx => (visitExpr_keeps inner hx).map _ (fun _ => rfl) fun _ _ => rfl
  | .ifExpr span (.pattern pattern init) thenBlock elseBlock, hx => by
    have hinit := visitExpr_keeps init (plain_left (plain_left hx))
    have hscope := Keeps.inScope (visitPattern_binds pattern (plain_right (plain_left hx)))
      (visitBlock_keeps thenBlock (plain_left (plain_right hx)))
    have helse := visitOptBlock_keeps elseBlock (plain_right (plain_right hx))
    have h : Keeps _ (visitExpr (.ifExpr span (.pattern pattern init) thenBlock elseBlock))
        (fun env => nameExpr env (.ifExpr span (.pattern pattern init) thenBlock elseBlock))
        fun e env => nameExpr env e :=
      hinit.map₃ (fun init c elseBlock => Expr.ifExpr span (.pattern c.1 init) c.2 elseBlock)
        hscope helse (fun _ => rfl) fun _ _ _ _ => rfl
    exact h.mono (by simp [exprNames, condNames]; omega)
  | .ifExpr span (.value value) thenBlock elseBlock, hx =>
    ((visitExpr_keeps value (plain_left hx)).map₃
      (fun value thenBlock elseBlock => Expr.ifExpr span (.value value) thenBlock elseBlock)
      (visitBlock_keeps thenBlock (plain_left (plain_right hx)))
      (visitOptBlock_keeps elseBlock (plain_right (plain_right hx))) (fun _ => rfl)
      fun _ _ _ _ => rfl).mono (by simp [exprNames, condNames])
  | .matchExpr _ scrutinee arms, hx =>
    ((visitExpr_keeps scrutinee (plain_left hx)).map₂ _ (visitArms_keeps arms (plain_right hx))
      (fun _ => rfl) fun _ _ _ => rfl).mono (by simp [exprNames])
  | .loop _ body, hx => (visitBlock_keeps body hx).map _ (fun _ => rfl) fun _ _ => rfl
  | .whileExpr span (.pattern pattern init) body, hx =>
    ((visitExpr_keeps init (plain_left (plain_left hx))).map₂
      (fun init c => Expr.whileExpr span (.pattern c.1 init) c.2)
      (Keeps.inScope (visitPattern_binds pattern (plain_right (plain_left hx)))
        (visitBlock_keeps body (plain_right hx))) (fun _ => rfl) fun _ _ _ => rfl).mono
      (by simp [exprNames, condNames])
  | .whileExpr span (.value value) body, hx =>
    ((visitExpr_keeps value (plain_left hx)).map₂
      (fun value body => Expr.whileExpr span (.value value) body)
      (visitBlock_keeps body (plain_right hx)) (fun _ => rfl) fun _ _ _ => rfl).mono
      (by simp [exprNames, condNames])
  | .block _ block, hx => (visitBlock_keeps block hx).map _ (fun _ => rfl) fun _ _ => rfl
  | .returnExpr _ value, hx => (visitOption_keeps value hx).map _ (fun _ => rfl) fun _ _ => rfl
  | .breakExpr _, _ => keeps_pure (fun _ => rfl) fun _ => rfl
  | .continueExpr _, _ => keeps_pure (fun _ => rfl) fun _ => rfl
  | .range span start stop inclusive, hx =>
    ((visitOption_keeps start (plain_left hx)).map₂
      (fun start stop => Expr.range span start stop inclusive)
      (visitOption_keeps stop (plain_right hx)) (fun _ => rfl) fun _ _ _ => rfl).mono
      (by simp [exprNames])

theorem visitExprs_keeps : ∀ es : List Expr, (∀ x ∈ exprsNames es, Plain x) →
    Keeps (exprsNames es).length (visitExprs es) (fun env => nameExprs env es)
      fun es env => nameExprs env es
  | [], _ => keeps_pure (fun _ => rfl) fun _ => rfl
  | e :: rest, hx =>
    ((visitExpr_keeps e (plain_left hx)).map₂ _ (visitExprs_keeps rest (plain_right hx))
      (fun _ => rfl) fun _ _ _ => rfl).mono (by simp [exprsNames])

theorem visitOption_keeps : ∀ e : Option Expr, (∀ x ∈ optionNames e, Plain x) →
    Keeps (optionNames e).length (visitOption e) (fun env => nameOption env e)
      fun e env => nameOption env e
  | none, _ => keeps_pure (fun _ => rfl) fun _ => rfl
  | some e, hx => (visitExpr_keeps e hx).map _ (fun _ => rfl) fun _ _ => rfl

theorem visitFieldInits_keeps : ∀ fs : List FieldInit, (∀ x ∈ fieldInitNames fs, Plain x) →
    Keeps (fieldInitNames fs).length (visitFieldInits fs) (fun env => nameFieldInits env fs)
      fun fs env => nameFieldInits env fs
  | [], _ => keeps_pure (fun _ => rfl) fun _ => rfl
  | .mk name value :: rest, hx =>
    ((visitExpr_keeps value (plain_left hx)).map₂ (fun value rest => FieldInit.mk name value :: rest)
      (visitFieldInits_keeps rest (plain_right hx)) (fun _ => rfl) fun _ _ _ => rfl).mono
      (by simp [fieldInitNames])

theorem visitArms_keeps : ∀ arms : List MatchArm, (∀ x ∈ armNames arms, Plain x) →
    Keeps (armNames arms).length (visitArms arms) (fun env => nameArms env arms)
      fun arms env => nameArms env arms
  | [], _ => keeps_pure (fun _ => rfl) fun _ => rfl
  | .mk pattern body :: rest, hx =>
    ((Keeps.inScope (visitPattern_binds pattern (plain_left hx))
      (visitExpr_keeps body (plain_left (plain_right hx)))).map₂
      (fun c rest => MatchArm.mk c.1 c.2 :: rest) (visitArms_keeps rest (plain_right (plain_right hx)))
      (fun _ => rfl) fun _ _ _ => rfl).mono (by simp [armNames]; omega)

theorem visitBlock_keeps : ∀ block : Block, (∀ x ∈ blockNames block, Plain x) →
    Keeps (blockNames block).length (visitBlock block) (fun env => nameBlock env block)
      fun block env => nameBlock env block
  | .mk span statements value, hx =>
    ((Keeps.inScope (visitStmts_binds statements (plain_left hx))
      (visitOption_keeps value (plain_right hx))).map (fun c => Block.mk span c.1 c.2) (fun _ => rfl)
      fun _ _ => rfl).mono (by simp [blockNames])

theorem visitOptBlock_keeps : ∀ block : Option Block, (∀ x ∈ optBlockNames block, Plain x) →
    Keeps (optBlockNames block).length (visitOptBlock block) (fun env => nameOptBlock env block)
      fun block env => nameOptBlock env block
  | none, _ => keeps_pure (fun _ => rfl) fun _ => rfl
  | some block, hx => (visitBlock_keeps block hx).map _ (fun _ => rfl) fun _ _ => rfl

theorem visitStmts_binds : ∀ stmts : List Stmt, (∀ x ∈ stmtsNames stmts, Plain x) →
    Binds (stmtsNames stmts).length (visitStmts stmts) (fun env => nameStmts env stmts)
      fun stmts env => nameStmts env stmts
  | [], _ => binds_pure (fun _ => rfl) fun _ => rfl
  | stmt :: rest, hx =>
    ((visitStmt_binds stmt (plain_left hx)).map₂ _ (visitStmts_binds rest (plain_right hx))
      (fun _ => rfl) fun _ _ _ => rfl).mono (by simp [stmtsNames])

theorem visitStmt_binds : ∀ stmt : Stmt, (∀ x ∈ stmtNames stmt, Plain x) →
    Binds (stmtNames stmt).length (visitStmt stmt) (fun env => nameStmt env stmt)
      fun stmt env => nameStmt env stmt
  | .decl span pattern type init, hx =>
    ((visitExpr_keeps init (plain_left hx)).thenBinds
      (fun init pattern => Stmt.decl span pattern type init)
      (visitPattern_binds pattern (plain_right hx)) (fun _ => rfl) fun _ _ _ => rfl).mono
      (by simp [stmtNames])
  | .reassign span place compound op value, hx => by
    have hparts : Keeps _ (do return (← visitExpr place, ← visitExpr value))
        (fun env => do return (← nameExpr env place, ← nameExpr env value))
        fun c env => do return (← nameExpr env c.1, ← nameExpr env c.2) :=
      (visitExpr_keeps place (plain_left hx)).map₂ Prod.mk
        (visitExpr_keeps value (plain_right hx)) (fun _ => rfl) fun _ _ _ => rfl
    have h : Binds _ (visitStmt (.reassign span place compound op value))
        (fun env => nameStmt env (.reassign span place compound op value))
        fun stmt env => nameStmt env stmt :=
      hparts.binds (fun c => Stmt.reassign span c.1 compound op c.2) (fun _ => rfl) fun _ _ => rfl
    exact h.mono (by simp [stmtNames])
  | .expr span value, hx =>
    (visitExpr_keeps value hx).binds (fun value => Stmt.expr span value) (fun _ => rfl) fun _ _ => rfl

end

/-! ## Items -/

theorem visitParams_binds : ∀ params : List FnParam,
    (∀ x ∈ bindersAll (params.map (·.pattern)), Plain x) →
    Binds (bindersAll (params.map (·.pattern))).length (visitParams params)
      (fun env => nameParams env params) fun params env => nameParams env params
  | [], _ => binds_pure (fun _ => rfl) fun _ => rfl
  | param :: rest, hx =>
    ((visitPattern_binds param.pattern (plain_left hx)).map₂
      (fun pattern rest => { param with pattern := pattern } :: rest)
      (visitParams_binds rest (plain_right hx)) (fun _ => rfl) fun _ _ _ => rfl).mono
      (by simp [bindersAll])

theorem visitFn_keeps {fn : FnItem} (hx : ∀ x ∈ fnNames fn, Plain x) :
    Keeps (fnNames fn).length (visitFn fn) (fun env => nameFn env fn) fun fn env => nameFn env fn :=
  ((Keeps.inScope (visitParams_binds fn.params (plain_left hx))
    (visitBlock_keeps fn.body (plain_right hx))).map
    (fun c => { fn with params := c.1, body := c.2 }) (fun _ => rfl) fun _ _ => rfl).mono
    (by simp [fnNames])

theorem visitGlobal_keeps {decl : StaticItem} (hx : ∀ x ∈ exprNames decl.init, Plain x) :
    Keeps (exprNames decl.init).length (visitGlobal decl) (fun env => nameGlobal env decl)
      fun decl env => nameGlobal env decl := by
  have hnone : Binds 0 (pure ()) (fun env => pure ((), env)) fun _ env => pure ((), env) :=
    binds_pure (fun _ => rfl) fun _ => rfl
  have h : Keeps _ (visitGlobal decl) (fun env => nameGlobal env decl)
      fun decl env => nameGlobal env decl :=
    (Keeps.inScope hnone (visitExpr_keeps decl.init hx)).map
      (fun c => { decl with init := c.2 }) (fun _ => rfl) fun _ _ => rfl
  exact h.mono (by simp)

theorem visitMethods_keeps : ∀ methods : List FnItem, (∀ x ∈ methodNames methods, Plain x) →
    Keeps (methodNames methods).length (visitMethods methods) (fun env => nameMethods env methods)
      fun methods env => nameMethods env methods
  | [], _ => keeps_pure (fun _ => rfl) fun _ => rfl
  | _ :: rest, hx =>
    ((visitFn_keeps (plain_left hx)).map₂ _ (visitMethods_keeps rest (plain_right hx))
      (fun _ => rfl) fun _ _ _ => rfl).mono (by simp [methodNames])

mutual

theorem visitItem_keeps : ∀ item : Item, (∀ x ∈ itemNames item, Plain x) →
    Keeps (itemNames item).length (visitItem item) (fun env => nameItem env item)
      fun item env => nameItem env item
  | .fn _, hx => (visitFn_keeps hx).map _ (fun _ => rfl) fun _ _ => rfl
  | .struct _, _ => keeps_pure (fun _ => rfl) fun _ => rfl
  | .enum _, _ => keeps_pure (fun _ => rfl) fun _ => rfl
  | .impl impl, hx =>
    (visitMethods_keeps impl.methods hx).map (fun methods => Item.impl { impl with methods })
      (fun _ => rfl) fun _ _ => rfl
  | .mod span isPub name items isInline, hx =>
    (visitItems_keeps items hx).map (fun items => Item.mod span isPub name items isInline)
      (fun _ => rfl) fun _ _ => rfl
  | .static _, hx => (visitGlobal_keeps hx).map _ (fun _ => rfl) fun _ _ => rfl
  | .const _, hx => (visitGlobal_keeps hx).map _ (fun _ => rfl) fun _ _ => rfl
  | .use _, _ => keeps_pure (fun _ => rfl) fun _ => rfl

theorem visitItems_keeps : ∀ items : List Item, (∀ x ∈ itemsNames items, Plain x) →
    Keeps (itemsNames items).length (visitItems items) (fun env => nameItems env items)
      fun items env => nameItems env items
  | [], _ => keeps_pure (fun _ => rfl) fun _ => rfl
  | item :: rest, hx =>
    ((visitItem_keeps item (plain_left hx)).map₂ _ (visitItems_keeps rest (plain_right hx))
      (fun _ => rfl) fun _ _ _ => rfl).mono (by simp [itemsNames])

end

/-- **Desugaring preserves binding.** When it adds no diagnostic, the trees before
and after have the same nameless form: every path refers to the same binder, and
one that refers to no local keeps its name. No binder has the name of a visible
one, except for the keyword spellings, which the pass leaves alone. -/
theorem desugarShadowing_preserves {items : List Item} (h : Parsed items) {bag : DiagBag}
    (hclean : (desugarShadowing items bag).2 = bag) :
    nameless (desugarShadowing items bag).1 = nameless items ∧
      ∀ x ∈ clashes (desugarShadowing items bag).1, isKeywordName x = true := by
  have hstart : Tracks ⟨0, [[]], bag⟩ [[]] := ⟨rfl, by simp, by simp⟩
  obtain ⟨-, R, -, -, hagree⟩ := (visitItems_keeps items h.plain [[]]).run ⟨0, [[]], bag⟩ hstart
    (by have := h.few; simpa using this) hclean
  obtain ⟨hname, -, hclash⟩ := hagree [[]] [[]] ⟨[[]], rfl, rfl, rfl⟩ ⟨0, []⟩ ⟨0, []⟩ rfl
    (fun _ hx => by cases hx)
  exact ⟨hname.symm, hclash⟩

/-- `fn f(x: i32) { x := x; x }` -/
def shadowedParam : List Item :=
  let x := Ident.mk "x" ⟨0, 0, 0⟩
  let use := Expr.path ⟨0, 0, 0⟩ ⟨[x], ⟨0, 0, 0⟩⟩
  [.fn ⟨⟨0, 0, 0⟩, false, ⟨"f", ⟨0, 0, 0⟩⟩, [⟨.ident ⟨0, 0, 0⟩ x, .primitive ⟨0, 0, 0⟩ .i32⟩], none,
    .mk ⟨0, 0, 0⟩ [.decl ⟨0, 0, 0⟩ (.ident ⟨0, 0, 0⟩ x) none use] (some use)⟩]

theorem shadowedParam_preserved :
    nameless (desugarShadowing shadowedParam []).1 = nameless shadowedParam ∧
      ∀ x ∈ clashes (desugarShadowing shadowedParam []).1, isKeywordName x = true :=
  desugarShadowing_preserves ⟨by decide, by decide⟩ (by decide)

/-- `fn f(self: i32) { self := self; self }` -/
def shadowedSelf : List Item :=
  let self := Ident.mk "self" ⟨0, 0, 0⟩
  let use := Expr.path ⟨0, 0, 0⟩ ⟨[self], ⟨0, 0, 0⟩⟩
  [.fn ⟨⟨0, 0, 0⟩, false, ⟨"f", ⟨0, 0, 0⟩⟩, [⟨.ident ⟨0, 0, 0⟩ self, .primitive ⟨0, 0, 0⟩ .i32⟩],
    none, .mk ⟨0, 0, 0⟩ [.decl ⟨0, 0, 0⟩ (.ident ⟨0, 0, 0⟩ self) none use] (some use)⟩]

/-- The block's `self` has the name of the parameter, and nothing is reported. -/
theorem shadowedSelf_clashes : Parsed shadowedSelf ∧ (desugarShadowing shadowedSelf []).2 = [] ∧
    clashes (desugarShadowing shadowedSelf []).1 = ["self"] :=
  ⟨⟨by decide, by decide⟩, by decide, by decide⟩

end Alcy.Parser
