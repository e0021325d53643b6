import Alcy.Ir.WellFormed

/-! # Operand shapes

The rows of the IR guide for branches, calls and memory instructions, and what `verify_storage`
checks of them. It compares no branch with the parameters of its target, counts no operand of a
load, a store or a return, and asks a case of a switch to be an immediate without asking for its
type: these are the rows an accepted storage can break.
-/
namespace Alcy.Ir

open Alcy.Lib.Guards

section
variable (s : Storage)

/-- The operand at the position. -/
def OperandAt (o : OperandIdx) (holds : Operand → Prop) : Prop :=
  ∃ operand, s.operands[o]? = some operand ∧ holds operand

/-- The tag of the operand's type. -/
def TypeTagIs (holds : TypeTag → Prop) (operand : Operand) : Prop :=
  ∃ node, s.types[operand.type]? = some node ∧ holds node.tag

def IntegerOperand : Operand → Prop := TypeTagIs s fun tag => isIntegerType tag = true

/-- The operand is a block that exists, with parameters as `params` says. -/
def BlockOperand (params : Nat → Prop) (operand : Operand) : Prop :=
  ∃ b block, operand.asBlock = some b ∧ s.blocks[b]? = some block ∧ params block.blockParams.size

/-- A block without parameters. -/
def PlainBlock : Operand → Prop := BlockOperand s fun n => n = 0

/-- The signature of the operand, which is a function. -/
def CalleeMeta (operand : Operand) (m : FunctionMeta) : Prop :=
  (∃ f func, operand.data = .function f ∧ s.functions[f]? = some func ∧ m = func.functionMeta) ∨
  ∃ f func, operand.data = .externalFunction f ∧ s.externalFunctions[f]? = some func ∧
    m = func.functionMeta

/-- The guide's row for an instruction. -/
def MatchesGuide (instr : Instruction) : Prop :=
  let ops := instr.operands
  match instr.op with
  | .br => OperandAt s ops.head (BlockOperand s fun n => ops.size = 1 + n)
  | .condBr => ops.size = 3 ∧ OperandAt s ops.head (TypeTagIs s (· = .i1)) ∧
      OperandAt s (ops.head + 1) (PlainBlock s) ∧ OperandAt s (ops.head + 2) (PlainBlock s)
  | .switch => ∃ cases, ops.size = 2 + 2 * cases ∧ OperandAt s ops.head (IntegerOperand s) ∧
      OperandAt s (ops.head + 1) (PlainBlock s) ∧ ∀ k < cases,
        OperandAt s (ops.head + (2 + 2 * k)) (fun o => o.asImmutable.isSome ∧ IntegerOperand s o) ∧
        OperandAt s (ops.head + (2 + 2 * k) + 1) (PlainBlock s)
  | .call => OperandAt s ops.head fun o => ∃ m, CalleeMeta s o m ∧
      ops.size = 1 + m.paramTypes.size
  | .load => ops.size = 1
  | .store => ops.size = 2
  | .ret => ops.size ≤ 1
  | .getElementPtr => 2 ≤ ops.size ∧ OperandAt s ops.head (fun o => o.asRegister.isSome) ∧
      ∀ k, 1 ≤ k → k < ops.size → OperandAt s (ops.head + k) (IntegerOperand s)
  | .extractValue => 2 ≤ ops.size ∧ ∀ k, 1 ≤ k → k < ops.size →
      OperandAt s (ops.head + k) fun o => o.asImmutable.isSome ∧ IntegerOperand s o
  | .insertValue => 3 ≤ ops.size ∧ ∀ k, 2 ≤ k → k < ops.size →
      OperandAt s (ops.head + k) fun o => o.asImmutable.isSome ∧ IntegerOperand s o
  | _ => True

/-- The part of the rows that the verifier leaves out: the number of arguments of a branch, of
operands of a load, a store and a return, and the type of a case. -/
def UncheckedRow (instr : Instruction) : Prop :=
  let ops := instr.operands
  match instr.op with
  | .br => ∀ o b block, s.operands[ops.head]? = some o → o.asBlock = some b →
      s.blocks[b]? = some block → ops.size = 1 + block.blockParams.size
  | .switch => ∀ k, 2 + 2 * k < ops.size →
      OperandAt s (ops.head + (2 + 2 * k)) (IntegerOperand s)
  | .load => ops.size = 1
  | .store => ops.size = 2
  | .ret => ops.size ≤ 1
  | _ => True

/-- The instructions that lie in a block. -/
def InBlock (instr : Instruction) : Prop :=
  ∃ block ∈ s.blocks, ∃ i ∈ block.instrs.toList, s.instrs[i]? = some instr

end

variable {s : Storage} {i : InstructionIdx} {instr : Instruction} {ops : IdxRange}

/-! ## The checks of a shape -/

theorem plainTarget_ok {kind : VerifyErrorKind} {o : Operand}
    (h : verifyPlainTarget s kind i o = .ok ()) : PlainBlock s o := by
  simp only [verifyPlainTarget, bind_eq_ok, exists_unit, reject_eq_ok, read_eq_ok] at h
  obtain ⟨_, b, hb, block, hblock, hparams⟩ := h
  refine ⟨b, block, ?_, hblock, by simpa [IdxRange.isEmpty] using hparams⟩
  unfold payload at hb
  split at hb <;> simp_all

theorem tag_ok {o : Operand} {holds : TypeTag → Prop} {node : TypeNode}
    (hn : s.types[o.type]? = some node) (h : holds node.tag) : TypeTagIs s holds o := ⟨node, hn, h⟩

theorem condBr_ok (h : verifyCondBr s i ops = .ok ()) : ops.size = 3 ∧
    OperandAt s ops.head (TypeTagIs s (· = .i1)) ∧
    OperandAt s (ops.head + 1) (PlainBlock s) ∧ OperandAt s (ops.head + 2) (PlainBlock s) := by
  simp only [verifyCondBr, bind_eq_ok, exists_unit, reject_eq_ok, read_eq_ok, forM_eq_ok,
    not_not, List.forall_mem_cons, List.not_mem_nil, false_implies, implies_true, and_true] at h
  obtain ⟨hsize, cond, hcond, node, hnode, htag, ⟨t, ht, hplain⟩, u, hu, hplain'⟩ := h
  exact ⟨hsize, ⟨cond, hcond, tag_ok hnode htag⟩, ⟨t, ht, plainTarget_ok hplain⟩,
    ⟨u, hu, plainTarget_ok hplain'⟩⟩

/-- All of a switch but the type of its cases. -/
theorem switch_ok (h : verifySwitch s i ops = .ok ()) : ∃ cases, ops.size = 2 + 2 * cases ∧
    OperandAt s ops.head (IntegerOperand s) ∧ OperandAt s (ops.head + 1) (PlainBlock s) ∧
    ∀ k < cases, OperandAt s (ops.head + (2 + 2 * k)) (fun o => o.asImmutable.isSome) ∧
      OperandAt s (ops.head + (2 + 2 * k) + 1) (PlainBlock s) := by
  simp only [verifySwitch, bind_eq_ok, exists_unit, reject_eq_ok, read_eq_ok, forM_eq_ok,
    not_or, not_not] at h
  obtain ⟨⟨hmin, heven⟩, value, hvalue, node, hnode, htag, dflt, hdflt, hplain, hcases⟩ := h
  refine ⟨(ops.size - 2) / 2, by omega, ⟨value, hvalue, tag_ok hnode htag⟩,
    ⟨dflt, hdflt, plainTarget_ok hplain⟩, fun k hk => ?_⟩
  have hcase := hcases (2 + 2 * k) (List.mem_range'.2 ⟨k, by omega, rfl⟩)
  simp only [verifySwitchCase, bind_eq_ok, exists_unit, reject_eq_ok, read_eq_ok] at hcase
  obtain ⟨v, hv, t, ht, himm, hplain⟩ := hcase
  exact ⟨⟨v, hv, by simpa [Option.isSome_iff_ne_none] using himm⟩, ⟨t, ht, plainTarget_ok hplain⟩⟩

theorem call_ok (h : verifyCall s i ops = .ok ()) :
    OperandAt s ops.head fun o => ∃ m, CalleeMeta s o m ∧ ops.size = 1 + m.paramTypes.size := by
  simp only [verifyCall, bind_eq_ok, exists_unit, reject_eq_ok, read_eq_ok, not_not] at h
  obtain ⟨hne, head, hhead, m, hm, hsize⟩ := h
  have hpos : 0 < ops.size := by simpa [IdxRange.isEmpty, Nat.pos_iff_ne_zero] using hne
  refine ⟨head, hhead, m, ?_, by omega⟩
  obtain ⟨data, type⟩ := head
  cases data with
  | function f =>
    simp only [calleeMeta, bind_eq_ok, read_eq_ok, pure_eq_ok] at hm
    obtain ⟨func, hf, rfl⟩ := hm
    exact .inl ⟨f, func, rfl, hf, rfl⟩
  | externalFunction f =>
    simp only [calleeMeta, bind_eq_ok, read_eq_ok, pure_eq_ok] at hm
    obtain ⟨func, hf, rfl⟩ := hm
    exact .inr ⟨f, func, rfl, hf, rfl⟩
  | register | block | immutable | void => cases hm

theorem br_ok (h : verifyBr s i ops = .ok ()) :
    OperandAt s ops.head fun o => o.asBlock.isSome := by
  simp only [verifyBr, bind_eq_ok, exists_unit, reject_eq_ok, read_eq_ok] at h
  obtain ⟨_, o, ho, hb⟩ := h
  exact ⟨o, ho, by simpa [Option.isSome_iff_ne_none] using hb⟩

theorem getElementPtr_ok (h : verifyGetElementPtr s i ops = .ok ()) : 2 ≤ ops.size ∧
    OperandAt s ops.head (fun o => o.asRegister.isSome) ∧
    ∀ k, 1 ≤ k → k < ops.size → OperandAt s (ops.head + k) (IntegerOperand s) := by
  simp only [verifyGetElementPtr, bind_eq_ok, exists_unit, reject_eq_ok, read_eq_ok, forM_eq_ok,
    not_not, Nat.not_lt] at h
  obtain ⟨hsize, base, hbase, hreg, hindex⟩ := h
  refine ⟨hsize, ⟨base, hbase, by simpa [Option.isSome_iff_ne_none] using hreg⟩,
    fun k h1 hk => ?_⟩
  obtain ⟨o, ho, node, hnode, htag⟩ := hindex k (List.mem_range'_1.2 ⟨h1, by omega⟩)
  exact ⟨o, ho, tag_ok hnode htag⟩

theorem extractInsert_ok {op : Opcode} (h : verifyExtractInsert s i op ops = .ok ()) :
    (if op = .extractValue then 1 else 2) + 1 ≤ ops.size ∧
    ∀ k, (if op = .extractValue then 1 else 2) ≤ k → k < ops.size →
      OperandAt s (ops.head + k) fun o => o.asImmutable.isSome ∧ IntegerOperand s o := by
  unfold verifyExtractInsert at h
  generalize (if op = .extractValue then 1 else 2) = first at h ⊢
  simp only [bind_eq_ok, exists_unit, reject_eq_ok, read_eq_ok, forM_eq_ok,
    not_not, Nat.not_lt] at h
  obtain ⟨hsize, hindex⟩ := h
  refine ⟨hsize, fun k h1 hk => ?_⟩
  obtain ⟨o, ho, himm, node, hnode, htag⟩ := hindex k (List.mem_range'_1.2 ⟨h1, by omega⟩)
  exact ⟨o, ho, by simpa [Option.isSome_iff_ne_none] using himm, tag_ok hnode htag⟩

/-! ## The rows -/

/-- An accepted instruction matches its row exactly when it matches what is not checked of it. -/
theorem matchesGuide_iff (hshape : verifyShape s i instr = .ok ())
    (hops : ∀ o ∈ instr.operands.toList, OperandChecked s o) :
    MatchesGuide s instr ↔ UncheckedRow s instr := by
  unfold verifyShape at hshape
  unfold MatchesGuide UncheckedRow
  cases hop : instr.op <;> simp only [hop] at hshape ⊢
  case br =>
    obtain ⟨o, ho, hb⟩ := br_ok hshape
    obtain ⟨b, hb⟩ := Option.isSome_iff_exists.1 hb
    constructor
    · rintro ⟨o', ho', b', block', hb', hblock', hsize⟩ p c block hp hc hblock
      simp_all
    · intro h
      have hpos : 0 < instr.operands.size := by
        simp only [verifyBr, bind_eq_ok, exists_unit, reject_eq_ok] at hshape
        simpa [IdxRange.isEmpty, Nat.pos_iff_ne_zero] using hshape.1
      obtain ⟨o', ho', hbounds⟩ := hops _ (IdxRange.mem_toList.2 ⟨Nat.le_refl _, by omega⟩)
      rw [ho, Option.some.injEq] at ho'
      subst ho'
      have hlt := hbounds.block b (asBlock_eq_some.1 hb)
      exact ⟨o, ho, b, _, hb, List.getElem?_eq_getElem hlt,
        h o b _ ho hb (List.getElem?_eq_getElem hlt)⟩
  case switch =>
    obtain ⟨cases, hsize, hvalue, hdflt, hcases⟩ := switch_ok hshape
    constructor
    · rintro ⟨cases', hsize', _, _, hc⟩ k hk
      obtain ⟨⟨o, ho, _, hint⟩, _⟩ := hc k (by omega)
      exact ⟨o, ho, hint⟩
    · refine fun h => ⟨cases, hsize, hvalue, hdflt, fun k hk => ⟨?_, (hcases k hk).2⟩⟩
      obtain ⟨o, ho, himm⟩ := (hcases k hk).1
      obtain ⟨o', ho', hint⟩ := h k (by omega)
      rw [ho, Option.some.injEq] at ho'
      exact ⟨o, ho, himm, ho' ▸ hint⟩
  case condBr => exact iff_of_true (condBr_ok hshape) trivial
  case call => exact iff_of_true (call_ok hshape) trivial
  case getElementPtr => exact iff_of_true (getElementPtr_ok hshape) trivial
  case extractValue => exact iff_of_true (extractInsert_ok hshape) trivial
  case insertValue => exact iff_of_true (extractInsert_ok hshape) trivial

/-- The loop over the operands of an accepted instruction. -/
theorem operandChecked_of_accepted (hv : verifyStorage s = .ok ()) (h : InBlock s instr) :
    ∃ i, verifyShape s i instr = .ok () ∧
      ∀ o ∈ instr.operands.toList, OperandChecked s o := by
  obtain ⟨block, hb, i, hi, hinstr⟩ := h
  obtain ⟨b, hb⟩ := List.mem_iff_getElem?.1 hb
  obtain ⟨defined, instr', hm, hinstr', _, hbound, hops, hshape⟩ := instr_of_accepted hv hb hi
  rw [hinstr, Option.some.injEq] at hinstr'
  subst hinstr'
  exact ⟨i, hshape, fun o ho =>
    (covered_operand hm.length (lt_of_mem_range hbound ho)).2 () (hops o ho)⟩

/-- **Operand shapes.** The instructions of an accepted storage match the guide exactly when they
match it in what the verifier leaves out. -/
theorem shapes_iff (hv : verifyStorage s = .ok ()) :
    (∀ instr, InBlock s instr → MatchesGuide s instr) ↔
      ∀ instr, InBlock s instr → UncheckedRow s instr := by
  refine forall_congr' fun instr => forall_congr' fun h => ?_
  obtain ⟨i, hshape, hops⟩ := operandChecked_of_accepted hv h
  exact matchesGuide_iff hshape hops

/-- A function whose first block branches to its second one, which takes one parameter. The branch
passes as many arguments as `args`, and the second block returns. -/
def branchPassing (args : List Operand) : Storage where
  functions := [⟨⟨0, ⟨0, 0⟩, 0⟩, ⟨0, 2⟩⟩]
  blocks := [⟨⟨0, 1⟩, ⟨0, 0⟩⟩, ⟨⟨1, 1⟩, ⟨0, 1⟩⟩]
  blockParams := [⟨primitiveIdx .i32, 0⟩]
  instrs := [⟨.br, .add, none, ⟨0, 1 + args.length⟩⟩, ⟨.ret, .add, none, ⟨0, 0⟩⟩]
  immutables := [⟨primitiveIdx .i32, 7⟩]
  registers := [⟨primitiveIdx .i32⟩]
  externalFunctions := []
  operands := ⟨.block 1, primitiveIdx .void⟩ :: args
  types := internPrimitives
  structTypes := []
  arrayTypes := []
  enumTypes := []
  enumVariantTypes := []
  refTypes := []
  tupleTypes := []

/-- The instructions of such a function. -/
theorem inBlock_branchPassing {args : List Operand} (h : InBlock (branchPassing args) instr) :
    instr = ⟨.br, .add, none, ⟨0, 1 + args.length⟩⟩ ∨ instr = ⟨.ret, .add, none, ⟨0, 0⟩⟩ := by
  obtain ⟨_, _, _, _, h⟩ := h
  simpa [branchPassing] using List.mem_of_getElem? h

/-- With one argument, the branch and the return match their rows. -/
theorem branchPassing_one_shapes :
    verifyStorage (branchPassing [⟨.immutable 0, primitiveIdx .i32⟩]) = .ok () ∧
    ∀ instr, InBlock (branchPassing [⟨.immutable 0, primitiveIdx .i32⟩]) instr →
      MatchesGuide (branchPassing [⟨.immutable 0, primitiveIdx .i32⟩]) instr := by
  refine ⟨by decide, (shapes_iff (by decide)).2 fun instr h => ?_⟩
  rcases inBlock_branchPassing h with rfl | rfl
  · intro o b block ho hb hblock
    cases ho
    cases hb
    cases hblock
    rfl
  · exact Nat.zero_le 1

/-- The verifier accepts a branch that passes nothing to a block with a parameter. -/
theorem branchPassing_none_accepted : verifyStorage (branchPassing []) = .ok () ∧
    InBlock (branchPassing []) ⟨.br, .add, none, ⟨0, 1⟩⟩ ∧
    ¬ MatchesGuide (branchPassing []) ⟨.br, .add, none, ⟨0, 1⟩⟩ := by
  refine ⟨by decide, ⟨⟨⟨0, 1⟩, ⟨0, 0⟩⟩, List.mem_cons_self .., 0, by simp, rfl⟩, ?_⟩
  rintro ⟨o, ho, b, block, hb, hblock, hsize⟩
  cases ho
  cases hb
  cases hblock
  exact nomatch hsize

end Alcy.Ir
