import Alcy.Codegen.Walk

/-! # What an instruction looks up

The operands whose values the emission of an instruction asks the maps for, and the rule that
carries a property of those lookups to all that the instruction logs (`logs_instruction`).
-/
namespace Alcy.Codegen

open Alcy.Ir Alcy.Lib Alcy.Lib.Traced

/-- The parameters of the block that a branch goes to. -/
def targetParams (s : Storage) (i : Instruction) : List BlockParamIdx :=
  (s.operands[i.operands.head]?.bind Operand.asBlock).elim [] fun c =>
    positions s.blocks c Block.blockParams

/-- The operands that the emission of an instruction looks up as values, by their distance from its
first operand. A branch looks for an argument at the place of the parameter in the table. -/
def valueOffsets (s : Storage) (i : Instruction) : List Nat :=
  match i.op with
  | .noop | .drop | .unreachable | .fence => []
  | .not | .bitReverse | .typeCast | .move | .alloca | .load | .atomicLoad | .extractValue => [0]
  | .select | .atomicCompareExchange | .condBr => [0, 1, 2]
  | .getElementPtr => 0 :: List.range' 1 (i.operands.size - 1)
  | .br => 0 :: (targetParams s i).map (1 + ·)
  | .switch => 0 :: 1 :: (List.range' 2 ((i.operands.size - 2) / 2) 2).flatMap fun k => [k, k + 1]
  | .call => List.range' 1 (i.operands.size - 1)
  | .ret => if i.operands.isEmpty then [] else [0]
  | _ => [0, 1]

/-- The event looks nothing up. -/
def NoLookup : Event → Prop
  | .functionValue .. | .externalFunctionValue .. | .registerValue .. | .blockValue ..
  | .immutableValue .. => False
  | _ => True

variable {s : Storage} {P : Event → Prop}

theorem mem_targetParams {i : Instruction} {p : BlockParamIdx} : p ∈ targetParams s i ↔
    ∃ o, s.operands[i.operands.head]? = some o ∧ ∃ c, o.data = .block c ∧
      ∃ block, s.blocks[c]? = some block ∧ p ∈ block.blockParams.toList := by
  unfold targetParams positions
  cases ho : s.operands[i.operands.head]? with
  | none => simp
  | some o =>
    obtain ⟨data, type⟩ := o
    cases data with
    | block c => cases hb : s.blocks[c]? <;> simp [Operand.asBlock, hb]
    | _ => simp [Operand.asBlock]

/-! ## Tables and maps -/

theorem logs_fetch {α β : Type} {table : List α} {idx : Nat} {k : α → EmitM β}
    (h : ∀ a, table[idx]? = some a → Logs P (k a)) : Logs P (fetch table idx >>= k) := by
  unfold fetch
  cases ha : table[idx]? with
  | none => exact .stop
  | some a => exact h a ha

theorem logs_allocaType (idx : RegisterIdx) : Logs P (allocaType idx) := by
  refine Logs.get.bind fun st => ?_
  unfold fetch
  split
  exacts [.pure _, .stop]

theorem logs_orStop {α β : Type} {data : Option α} {k : α → EmitM β}
    (h : ∀ a, data = some a → Logs P (k a)) : Logs P (orStop data >>= k) := by
  unfold orStop
  cases data with
  | none => exact .stop
  | some a => exact h a rfl

theorem logs_map (map : LlvmIrStorage → List Pointer) (event : Pointer → Event)
    (h : ∀ v, P (event v)) (idx : Nat) :
    Logs P (do let found ← fetch (map (← Traced.get)) idx
               Traced.tell (event found)
               pure found) :=
  Logs.get.bind fun _ => logs_fetch fun v _ => (Logs.tell (h v)).bind fun _ => .pure _

theorem logs_aggregateIndex (idx : OperandIdx) : Logs P (aggregateIndex s idx) :=
  logs_fetch fun _ _ => logs_orStop fun _ _ => logs_fetch fun _ _ => logs_fetch fun _ _ =>
    logs_orStop fun _ _ => .pure _

theorem logs_type (idx : TypeIdx) : Logs P (type s idx) := by
  unfold type orStop
  split
  exacts [.pure _, .stop]

theorem logs_resolveOperandValue {o : Operand}
    (hr : ∀ r v, o.data = .register r → P (.registerValue r v))
    (hb : ∀ c v, o.data = .block c → P (.blockValue c v))
    (hi : ∀ i v, P (.immutableValue i v)) : Logs P (resolveOperandValue o) := by
  unfold resolveOperandValue
  cases h : o.data with
  | register r => exact logs_map LlvmIrStorage.registers (.registerValue r) (fun v => hr r v h) r
  | block c => exact logs_map LlvmIrStorage.blocks (.blockValue c) (fun v => hb c v h) c
  | immutable i => exact logs_map LlvmIrStorage.immutables (.immutableValue i) (hi i) i
  | function | externalFunction | void => exact .stop

theorem logs_resolveOperandFunction {o : Operand}
    (hf : ∀ g v, o.data = .function g → P (.functionValue g v))
    (he : ∀ e v, P (.externalFunctionValue e v)) : Logs P (resolveOperandFunction o) := by
  unfold resolveOperandFunction
  cases h : o.data with
  | function g => exact logs_map LlvmIrStorage.functions (.functionValue g) (fun v => hf g v h) g
  | externalFunction e =>
    exact logs_map LlvmIrStorage.externalFunctions (.externalFunctionValue e) (he e) e
  | register | block | immutable | void => exact .stop

theorem logs_resolveAt {idx : OperandIdx}
    (h : ∀ o, s.operands[idx]? = some o → Logs P (resolveOperandValue o)) :
    Logs P (resolveAt s idx) :=
  logs_fetch h

theorem logs_block {o : Operand} {c : BlockIdx} (hc : o.asBlock = some c)
    (h : Logs P (resolveOperandValue o)) : Logs P (blockValue c) := by
  obtain ⟨data, type⟩ := o
  cases data <;> cases hc
  exact h

/-- A block that is looked up through an operand. -/
theorem logs_blockAt {idx : OperandIdx}
    (h : ∀ o, s.operands[idx]? = some o → Logs P (resolveOperandValue o)) :
    Logs P (blockAt s idx) :=
  logs_fetch fun o ho => logs_orStop fun _ hc => logs_block hc (h o ho)

theorem logs_addAllocaType (r : RegisterIdx) (ty : LlvmType) : Logs P (addAllocaType r ty) :=
  Logs.get.bind fun _ => logs_fetch fun _ _ => .modify _

section
variable (hother : ∀ e, NoLookup e → P e)
include hother

theorem logs_build (iidx : InstructionIdx) (operands : List Pointer) (indices : List (BitVec 32)) :
    Logs P (build iidx operands indices) :=
  (Logs.tell (hother (.build iidx operands indices) trivial)).bind fun _ => .pure _

theorem logs_addRegister (r : RegisterIdx) (v : Pointer) : Logs P (addRegister r v) :=
  Logs.get.bind fun _ => logs_fetch fun _ _ =>
    (Logs.tell (hother (.addRegister r v) trivial)).bind fun _ => .modify _

theorem logs_addDst (dst : Option RegisterIdx) (v : Pointer) : Logs P (addDst dst v) := by
  cases dst with
  | none => exact .pure ()
  | some r => exact logs_addRegister hother r v

/-! ## The instructions -/

/-- What the lookups of an instruction's values, of its callee and of its target's parameters log,
the instruction logs. -/
theorem logs_instruction (iidx : InstructionIdx) {i : Instruction}
    (hvalue : ∀ k ∈ valueOffsets s i, ∀ o, s.operands[i.operands.head + k]? = some o →
      Logs P (resolveOperandValue o))
    (hcallee : i.op = .call → ∀ o, s.operands[i.operands.head]? = some o →
      Logs P (resolveOperandFunction o))
    (hparam : i.op = .br → ∀ p ∈ targetParams s i, ∀ param, s.blockParams[p]? = some param →
      Logs P (registerValue param.reg)) :
    Logs P (emitInstruction s iidx i) := by
  have h0 (h : 0 ∈ valueOffsets s i) : ∀ o, s.operands[i.operands.head]? = some o →
      Logs P (resolveOperandValue o) := hvalue 0 h
  unfold emitInstruction
  cases hop : i.op
  case br =>
    refine logs_fetch fun o ho => logs_orStop fun c hc => .bind ?_ fun _ => Logs.get.bind fun _ =>
      (logs_build hother _ _ _).bind fun _ => logs_fetch fun block hb => .forM fun p hp => ?_
    · exact logs_block hc (h0 (by simp [valueOffsets, hop]) o ho)
    · have hp : p ∈ targetParams s i := by
        obtain ⟨data, type⟩ := o
        cases data <;> cases hc
        exact mem_targetParams.2 ⟨_, ho, c, rfl, block, hb, hp⟩
      refine logs_fetch fun param hparam' => (hparam hop p hp param hparam').bind fun _ =>
        (logs_resolveAt fun o ho => ?_).bind fun _ => .tell (hother _ trivial)
      exact hvalue (1 + p) (by simp [valueOffsets, hop, hp]) o (by rwa [← Nat.add_assoc])
  case switch =>
    refine (logs_resolveAt (h0 ?_)).bind fun _ => (logs_blockAt (hvalue 1 ?_)).bind fun _ =>
      (Logs.mapM fun k hk => ?_).bind fun _ => (logs_build hother _ _ _).bind fun _ => .pure _
    · simp [valueOffsets, hop]
    · simp [valueOffsets, hop]
    · have hm : ∀ j ∈ [k, k + 1], j ∈ valueOffsets s i := fun j hj => by
        simp only [valueOffsets, hop, List.mem_cons, List.mem_flatMap]
        exact .inr (.inr ⟨k, hk, by simpa using hj⟩)
      exact (logs_resolveAt (hvalue k (hm k (by simp)))).bind fun _ =>
        (logs_blockAt (hvalue (k + 1) (hm _ (by simp)))).bind fun _ => .pure _
  case call =>
    refine logs_fetch fun o ho => (hcallee hop o ho).bind fun _ =>
      (Logs.mapM fun k hk => logs_resolveAt (hvalue k ?_)).bind fun _ =>
        (logs_build hother _ _ _).bind fun _ => logs_addDst hother _ _
    simpa only [valueOffsets, hop] using hk
  case getElementPtr =>
    refine logs_fetch fun o ho => logs_orStop fun _ _ => (logs_allocaType _).bind fun _ =>
      (Logs.mapM fun k hk => logs_resolveAt (hvalue k ?_)).bind fun _ =>
        (h0 ?_ o ho).bind fun _ => (logs_build hother _ _ _).bind fun _ => logs_addDst hother _ _
    · simp only [valueOffsets, hop]
      exact List.mem_cons_of_mem _ hk
    · simp [valueOffsets, hop]
  case ret =>
    simp only [emitRet]
    split
    · exact (logs_build hother _ _ _).bind fun _ => .pure _
    · refine (logs_resolveAt (h0 ?_)).bind fun _ => (logs_build hother _ _ _).bind fun _ => .pure _
      simp [valueOffsets, *]
  all_goals
    simp only [valueOffsets, hop] at h0 hvalue
    simp only [emitBinary, emitNot, emitBitReverse, emitCompare, emitTypeCast, emitSelect, emitMove,
      emitAlloca, emitLoad, emitStore, emitCompareExchange, emitExtractValue, emitInsertValue,
      emitCondBr, emitPlain]
    repeat' with_reducible first
      | exact .pure _
      | exact .stop
      | exact .get
      | exact logs_build hother _ _ _
      | exact logs_addRegister hother _ _
      | exact logs_addDst hother _ _
      | exact logs_addAllocaType _ _
      | exact logs_type _
      | exact h0 (by decide) _ (by assumption)
      | exact hvalue 1 (by decide) _ (by assumption)
      | exact hvalue 2 (by decide) _ (by assumption)
      | exact logs_resolveAt (h0 (by decide))
      | exact logs_resolveAt (hvalue 1 (by decide))
      | exact logs_resolveAt (hvalue 2 (by decide))
      | exact logs_blockAt (hvalue 1 (by decide))
      | exact logs_blockAt (hvalue 2 (by decide))
      | exact .mapM fun _ _ => logs_aggregateIndex _
      | refine logs_fetch fun _ _ => ?_
      | refine logs_orStop fun _ _ => ?_
      | refine .bind ?_ fun _ => ?_
      | split

/-- A step looks up the block it enters, or what its instruction does. -/
theorem logs_step {step : Step}
    (henter : ∀ f b, step = .enterPhis f b ∨ step = .enterBody f b → ∀ v, P (.blockValue b v))
    (hinstr : ∀ f b i instr, step = .instr f b i → s.instrs[i]? = some instr →
      Logs P (emitInstruction s i instr)) : Logs P (emitStep s step) := by
  have hblock (f b : Nat) (h : step = .enterPhis f b ∨ step = .enterBody f b) :
      Logs P (do let _ ← enterBlock s b) := by
    refine Logs.bind (logs_fetch fun _ _ => ?_) fun _ => .pure ()
    exact ((logs_map LlvmIrStorage.blocks (.blockValue b) (henter f b h) b).bind fun _ =>
      .modify _).bind fun _ => .pure _
  cases step with
  | declareFunction f =>
    refine Logs.bind (logs_fetch fun func _ => ?_) fun _ => .pure ()
    refine Logs.bind ?_ fun _ => Logs.get.bind fun _ => logs_fetch fun _ _ =>
      (Logs.tell (hother _ (by trivial))).bind fun _ => (Logs.modify _).bind fun _ => .pure _
    exact (Logs.mapM fun _ _ => logs_type _).bind fun _ => (logs_type _).bind fun _ => .pure _
  | declareBlock f b =>
    exact Logs.get.bind fun _ => logs_fetch fun _ _ =>
      (Logs.tell (hother _ (by trivial))).bind fun _ => .modify _
  | enterPhis f b => exact hblock f b (.inl rfl)
  | enterBody f b => exact hblock f b (.inr rfl)
  | phi f b p =>
    exact logs_fetch fun _ _ => (logs_type _).bind fun _ =>
      (Logs.tell (hother _ (by trivial))).bind fun _ => logs_addRegister hother _ _
  | instr f b i => exact logs_fetch fun instr hi => hinstr f b i instr rfl hi

end

end Alcy.Codegen
