import Alcy.Codegen.Guarded
import Alcy.Lib.Coupled
import Mathlib.Logic.Equiv.Defs

/-! # The functions in another order

A storage whose functions are listed in another order, with the operands that name them renamed.
What the emitter does for a function is the same in both, renamed, as long as it looks up no
function, register or block but the function's own (`coupled_function`): the maps then agree on all
it reads.
-/
namespace Alcy.Ir

/-- An operand with its function renamed. -/
def Operand.rename (ρ : FunctionIdx → FunctionIdx) (o : Operand) : Operand :=
  { o with data := match o.data with
    | .function g => .function (ρ g)
    | data => data }

/-- The storage with the functions `functions`, which the operands know by their names under `ρ`. -/
def Storage.renamed (s : Storage) (ρ : FunctionIdx → FunctionIdx) (functions : List Function) :
    Storage :=
  { s with functions, operands := s.operands.map (Operand.rename ρ) }

end Alcy.Ir

namespace Alcy.Codegen

open Alcy.Ir Alcy.Lib Alcy.Lib.Traced

section
variable (ρ : FunctionIdx → FunctionIdx)

def Value.rename : Value → Value
  | .function g => .function (ρ g)
  | value => value

def Pointer.rename (p : Pointer) : Pointer := p.map (Value.rename ρ)

def Event.rename : Event → Event
  | .functionValue g v => .functionValue (ρ g) (Pointer.rename ρ v)
  | .externalFunctionValue e v => .externalFunctionValue e (Pointer.rename ρ v)
  | .registerValue r v => .registerValue r (Pointer.rename ρ v)
  | .blockValue b v => .blockValue b (Pointer.rename ρ v)
  | .immutableValue i v => .immutableValue i (Pointer.rename ρ v)
  | .addFunction g name params result => .addFunction (ρ g) name params result
  | .addRegister r v => .addRegister r (Pointer.rename ρ v)
  | .build i operands indices => .build i (operands.map (Pointer.rename ρ)) indices
  | .addIncoming phi value block =>
    .addIncoming (Pointer.rename ρ phi) (Pointer.rename ρ value) (Pointer.rename ρ block)
  | event => event

end

/-- A register that a block of the function defines. -/
def OwnRegister (s : Storage) (f : FunctionIdx) (r : RegisterIdx) : Prop :=
  ∃ d ∈ s.sites, d.block ∈ blocksOf s f ∧ s.definition d = some r

/-- The event looks up nothing of another function. -/
def Event.OwnOf (s : Storage) (f : FunctionIdx) : Event → Prop
  | .functionValue g _ => g = f
  | .registerValue r _ => OwnRegister s f r
  | .blockValue b _ => b ∈ blocksOf s f
  | _ => True

/-- The maps of two runs agree on what the function reads, under the renaming, and on the insertion
point once a block was entered. -/
structure Agree (s : Storage) (ρ : FunctionIdx → FunctionIdx) (f : FunctionIdx) (entered : Prop)
    (st st' : LlvmIrStorage) : Prop where
  registers : ∀ r, OwnRegister s f r →
    st'.registers[r]? = (st.registers[r]?).map (Pointer.rename ρ)
  blocks : ∀ b ∈ blocksOf s f, st'.blocks[b]? = (st.blocks[b]?).map (Pointer.rename ρ)
  functions : st'.functions[ρ f]? = (st.functions[f]?).map (Pointer.rename ρ)
  externalFunctions : st'.externalFunctions = st.externalFunctions.map (Pointer.rename ρ)
  immutables : st'.immutables = st.immutables.map (Pointer.rename ρ)
  registersSize : st'.registers.length = st.registers.length
  blocksSize : st'.blocks.length = st.blocks.length
  functionsSize : ∀ g, st.functions.length ≤ g → st'.functions.length ≤ ρ g
  allocaTypesSize : st'.allocaTypes.length = st.allocaTypes.length
  insertBlock : entered → st'.insertBlock = Pointer.rename ρ st.insertBlock

/-- The two runs on behalf of the function, from maps that agree to maps that agree. -/
abbrev Alike {α β : Type} (s : Storage) (ρ : FunctionIdx → FunctionIdx) (f : FunctionIdx)
    (m : EmitM α) (m' : EmitM β) (Q : α → β → Prop) : Prop :=
  Coupled (Event.OwnOf s f) (Event.rename ρ) (Agree s ρ f True) (Agree s ρ f True) m m' Q

variable {s : Storage} {ρ : FunctionIdx → FunctionIdx} {functions : List Function}
  {f : FunctionIdx}

/-- A pointer and its renaming. -/
abbrev Renames (ρ : FunctionIdx → FunctionIdx) (v v' : Pointer) : Prop := v' = Pointer.rename ρ v

/-! ## Lookups -/

section
variable {R : LlvmIrStorage → LlvmIrStorage → Prop} {K : Event → Prop}

theorem coupled_fetch {α : Type} (table : List α) (idx : Nat) :
    Coupled K (Event.rename ρ) R R (fetch table idx) (fetch table idx) Eq := by
  unfold fetch
  cases table[idx]? with
  | none => exact .stop
  | some a => exact .pure rfl

theorem coupled_orStop {α : Type} (data : Option α) :
    Coupled K (Event.rename ρ) R R (orStop data) (orStop data) Eq := by
  cases data with
  | none => exact .stop
  | some a => exact .pure rfl

/-- The operand of the other storage is the operand, renamed. -/
theorem coupled_operand (idx : OperandIdx) : Coupled K (Event.rename ρ) R R
    (fetch s.operands idx) (fetch (s.renamed ρ functions).operands idx)
    fun o o' => o' = o.rename ρ := by
  unfold fetch
  rw [show (s.renamed ρ functions).operands = s.operands.map (Operand.rename ρ) from rfl,
    List.getElem?_map]
  cases s.operands[idx]? with
  | none => exact .stop
  | some o => exact .pure rfl

theorem lowerType_renamed (fuel : Nat) (idx : TypeIdx) :
    lowerType (s.renamed ρ functions) fuel idx = lowerType s fuel idx := by
  induction fuel generalizing idx with
  | zero => rfl
  | succ fuel ih =>
    have : lowerType (s.renamed ρ functions) fuel = lowerType s fuel := funext ih
    simp only [lowerType, this]
    rfl

theorem type_renamed (idx : TypeIdx) : type (s.renamed ρ functions) idx = type s idx := by
  unfold type
  rw [lowerType_renamed]
  rfl

theorem coupled_type (idx : TypeIdx) : Coupled K (Event.rename ρ) R R
    (type s idx) (type (s.renamed ρ functions) idx) Eq := by
  rw [type_renamed]
  exact coupled_orStop _

/-- A lookup in one of the maps. -/
theorem coupled_map (map : LlvmIrStorage → List Pointer) (event event' : Pointer → Event)
    (idx idx' : Nat)
    (hnone : ∀ st st', R st st' → (map st)[idx]? = none → (map st')[idx']? = none)
    (hsome : ∀ st st' v, R st st' → (map st)[idx]? = some v → K (event v) →
      (map st')[idx']? = some (Pointer.rename ρ v))
    (hren : ∀ v, event' (Pointer.rename ρ v) = (event v).rename ρ) :
    Coupled K (Event.rename ρ) R R
      (do let found ← fetch (map (← Traced.get)) idx
          Traced.tell (event found)
          pure found)
      (do let found ← fetch (map (← Traced.get)) idx'
          Traced.tell (event' found)
          pure found) (Renames ρ) := by
  intro st st' hr hk
  cases h : (map st)[idx]? with
  | none =>
    have h' := hnone st st' hr h
    simp only [bind_def, resume, Traced.get, fetch, h, h', Traced.stop, List.nil_append,
      List.map_nil, true_and]
    exact .none
  | some v =>
    simp only [bind_def, resume, Traced.get, fetch, h, Traced.tell, pure_run, List.nil_append,
      List.append_nil, List.forall_mem_singleton] at hk
    have h' := hsome st st' v hr h hk
    simp only [bind_def, resume, Traced.get, fetch, h, h', Traced.tell, pure_run, List.nil_append,
      List.append_nil, List.map_cons, List.map_nil, hren, true_and]
    exact .some ⟨rfl, hr⟩

end

theorem getElem?_none_of_length {l l' : List Pointer} {idx : Nat} (h : l'.length = l.length)
    (hn : l[idx]? = none) : l'[idx]? = none := by
  rw [List.getElem?_eq_none_iff] at hn ⊢
  omega

theorem alike_registerValue (idx : RegisterIdx) :
    Alike s ρ f (registerValue idx) (registerValue idx) (Renames ρ) := by
  refine coupled_map LlvmIrStorage.registers (.registerValue idx) (.registerValue idx) idx idx
    ?_ ?_ fun _ => rfl
  · intro st st' h hn
    exact getElem?_none_of_length h.registersSize hn
  · intro st st' v h hv hk
    rw [h.registers idx hk, hv]
    rfl

theorem coupled_blockValue {entered : Prop} (idx : BlockIdx) :
    Coupled (Event.OwnOf s f) (Event.rename ρ) (Agree s ρ f entered) (Agree s ρ f entered)
      (blockValue idx) (blockValue idx) (Renames ρ) := by
  refine coupled_map LlvmIrStorage.blocks (.blockValue idx) (.blockValue idx) idx idx
    ?_ ?_ fun _ => rfl
  · intro st st' h hn
    exact getElem?_none_of_length h.blocksSize hn
  · intro st st' v h hv hk
    rw [h.blocks idx hk, hv]
    rfl

theorem alike_immutableValue (idx : ImmutableIdx) :
    Alike s ρ f (immutableValue idx) (immutableValue idx) (Renames ρ) := by
  refine coupled_map LlvmIrStorage.immutables (.immutableValue idx) (.immutableValue idx) idx idx
    ?_ ?_ fun _ => rfl
  · intro st st' h hn
    rw [h.immutables, List.getElem?_map, hn]
    rfl
  · intro st st' v h hv _
    rw [h.immutables, List.getElem?_map, hv]
    rfl

theorem alike_externalFunctionValue (idx : ExternalFunctionIdx) :
    Alike s ρ f (externalFunctionValue idx) (externalFunctionValue idx) (Renames ρ) := by
  refine coupled_map LlvmIrStorage.externalFunctions (.externalFunctionValue idx)
    (.externalFunctionValue idx) idx idx ?_ ?_ fun _ => rfl
  · intro st st' h hn
    rw [h.externalFunctions, List.getElem?_map, hn]
    rfl
  · intro st st' v h hv _
    rw [h.externalFunctions, List.getElem?_map, hv]
    rfl

theorem alike_functionValue (idx : FunctionIdx) :
    Alike s ρ f (functionValue idx) (functionValue (ρ idx)) (Renames ρ) := by
  refine coupled_map LlvmIrStorage.functions (.functionValue idx) (.functionValue (ρ idx))
    idx (ρ idx) ?_ ?_ fun _ => rfl
  · intro st st' h hn
    rw [List.getElem?_eq_none_iff] at hn ⊢
    exact h.functionsSize idx hn
  · intro st st' v h hv hk
    obtain rfl : idx = f := hk
    rw [h.functions, hv]
    rfl

theorem alike_allocaType (idx : RegisterIdx) :
    Alike s ρ f (allocaType idx) (allocaType idx) fun _ _ => True := by
  intro st st' h _
  have hsize := h.allocaTypesSize
  unfold allocaType
  cases ha : st.allocaTypes[idx]? with
  | none =>
    have ha' : st'.allocaTypes[idx]? = none := by
      rw [List.getElem?_eq_none_iff] at ha ⊢
      omega
    simp only [bind_def, resume, Traced.get, fetch, ha, ha', Traced.stop, List.nil_append,
      List.map_nil, true_and]
    exact .none
  | some ty =>
    obtain ⟨ty', ha'⟩ : ∃ ty', st'.allocaTypes[idx]? = some ty' := by
      have := (List.getElem?_eq_some_iff.1 ha).1
      exact ⟨_, List.getElem?_eq_getElem (hsize ▸ this)⟩
    simp only [bind_def, resume, Traced.get, fetch, ha, ha', pure_run, List.nil_append,
      List.map_nil, true_and]
    exact .some h

/-! ## Operands -/

theorem alike_resolveOperandValue (op : Operand) :
    Alike s ρ f (resolveOperandValue op) (resolveOperandValue (op.rename ρ)) (Renames ρ) := by
  obtain ⟨data, type⟩ := op
  cases data with
  | register idx => exact alike_registerValue idx
  | block idx => exact coupled_blockValue idx
  | immutable idx => exact alike_immutableValue idx
  | function | externalFunction | void => exact .stop

theorem alike_resolveOperandFunction (op : Operand) :
    Alike s ρ f (resolveOperandFunction op) (resolveOperandFunction (op.rename ρ))
      (Renames ρ) := by
  obtain ⟨data, type⟩ := op
  cases data with
  | function idx => exact alike_functionValue idx
  | externalFunction idx => exact alike_externalFunctionValue idx
  | register | block | immutable | void => exact .stop

theorem alike_resolveAt (idx : OperandIdx) :
    Alike s ρ f (resolveAt s idx) (resolveAt (s.renamed ρ functions) idx) (Renames ρ) := by
  refine (coupled_operand idx).bind fun o o' ho => ?_
  subst ho
  exact alike_resolveOperandValue o

@[simp] theorem asBlock_rename (o : Operand) : (o.rename ρ).asBlock = o.asBlock := by
  obtain ⟨data, type⟩ := o
  cases data <;> rfl

@[simp] theorem asImmutable_rename (o : Operand) : (o.rename ρ).asImmutable = o.asImmutable := by
  obtain ⟨data, type⟩ := o
  cases data <;> rfl

@[simp] theorem asRegister_rename (o : Operand) : (o.rename ρ).asRegister = o.asRegister := by
  obtain ⟨data, type⟩ := o
  cases data <;> rfl

theorem alike_blockAt (idx : OperandIdx) :
    Alike s ρ f (blockAt s idx) (blockAt (s.renamed ρ functions) idx) (Renames ρ) := by
  refine (coupled_operand idx).bind fun o o' ho => ?_
  subst ho
  rw [asBlock_rename]
  refine (coupled_orStop _).bind fun b b' hb => ?_
  subst hb
  exact coupled_blockValue b

theorem alike_aggregateIndex (idx : OperandIdx) :
    Alike s ρ f (aggregateIndex s idx) (aggregateIndex (s.renamed ρ functions) idx) Eq := by
  refine (coupled_operand idx).bind fun o o' ho => ?_
  subst ho
  rw [asImmutable_rename]
  refine (coupled_orStop _).bind fun i i' hi => ?_
  subst hi
  refine (coupled_fetch _ _).bind fun imm imm' himm => ?_
  subst himm
  refine (coupled_fetch _ _).bind fun node node' hnode => ?_
  subst hnode
  refine (coupled_orStop _).bind fun value value' hvalue => ?_
  subst hvalue
  exact .pure rfl

theorem forall₂_renames {l l' : List Pointer} (h : List.Forall₂ (Renames ρ) l l') :
    l' = l.map (Pointer.rename ρ) := by
  induction h with
  | nil => rfl
  | cons h _ ih => rw [List.map_cons, h, ih]

theorem alike_resolveAll (first : Nat) (offsets : List Nat) :
    Alike s ρ f (offsets.mapM fun offset => resolveAt s (first + offset))
      (offsets.mapM fun offset => resolveAt (s.renamed ρ functions) (first + offset))
      fun l l' => l' = l.map (Pointer.rename ρ) :=
  (Coupled.mapM fun _ _ => alike_resolveAt _).weaken (fun _ _ h => h) (fun _ _ h => h)
    fun _ _ => forall₂_renames

theorem alike_indices (first : Nat) (offsets : List Nat) :
    Alike s ρ f (offsets.mapM fun offset => aggregateIndex s (first + offset))
      (offsets.mapM fun offset => aggregateIndex (s.renamed ρ functions) (first + offset))
      Eq :=
  (Coupled.mapM fun _ _ => alike_aggregateIndex _).weaken (fun _ _ h => h) (fun _ _ h => h)
    fun _ _ h => List.forall₂_eq_eq_eq ▸ h

/-! ## Writes -/

theorem alike_build (iidx : InstructionIdx) {operands operands' : List Pointer}
    (h : operands' = operands.map (Pointer.rename ρ)) (indices : List (BitVec 32)) :
    Alike s ρ f (build iidx operands indices) (build iidx operands' indices) (Renames ρ) := by
  subst h
  exact (Coupled.tell (Q := fun _ _ => True) (fun _ => rfl) trivial).bind fun _ _ _ => .pure rfl

theorem getElem?_set_renamed {l l' : List Pointer} {i j : Nat} {v : Pointer}
    (hlen : l'.length = l.length) (h : l'[j]? = (l[j]?).map (Pointer.rename ρ)) :
    (l'.set i (Pointer.rename ρ v))[j]? = ((l.set i v)[j]?).map (Pointer.rename ρ) := by
  rw [List.getElem?_set, List.getElem?_set, hlen]
  split
  · split <;> rfl
  · exact h

theorem alike_addRegister (r : RegisterIdx) {v v' : Pointer} (hv : Renames ρ v v') :
    Alike s ρ f (addRegister r v) (addRegister r v') fun _ _ => True := by
  subst hv
  unfold addRegister
  refine Coupled.get.bind fun st st' h => ?_
  have hfetch : Alike s ρ f (fetch st.registers r) (fetch st'.registers r) fun _ _ => True := by
    unfold fetch
    cases hr : st.registers[r]? with
    | none =>
      rw [getElem?_none_of_length h.registersSize hr]
      exact .stop
    | some old =>
      have := (List.getElem?_eq_some_iff.1 hr).1
      rw [List.getElem?_eq_getElem (h.registersSize ▸ this)]
      exact .pure trivial
  refine hfetch.bind fun _ _ _ => ?_
  refine (Coupled.tell (Q := fun _ _ => True) (fun _ => rfl) trivial).bind fun _ _ _ => ?_
  refine .modify (fun st st' h => ?_) trivial
  exact { h with
    registers := fun q hq => getElem?_set_renamed h.registersSize (h.registers q hq)
    registersSize := by simpa using h.registersSize }

theorem alike_addDst (dst : Option RegisterIdx) {v v' : Pointer} (hv : Renames ρ v v') :
    Alike s ρ f (addDst dst v) (addDst dst v') fun _ _ => True := by
  cases dst with
  | none => exact .pure trivial
  | some r => exact alike_addRegister r hv

theorem alike_addAllocaType (r : RegisterIdx) (ty : LlvmType) :
    Alike s ρ f (addAllocaType r ty) (addAllocaType r ty) fun _ _ => True := by
  unfold addAllocaType
  refine Coupled.get.bind fun st st' h => ?_
  have hfetch : Alike s ρ f (fetch st.allocaTypes r) (fetch st'.allocaTypes r) fun _ _ => True := by
    have hsize := h.allocaTypesSize
    unfold fetch
    cases hr : st.allocaTypes[r]? with
    | none =>
      have hr' : st'.allocaTypes[r]? = none := by
        rw [List.getElem?_eq_none_iff] at hr ⊢
        omega
      rw [hr']
      exact .stop
    | some old =>
      have := (List.getElem?_eq_some_iff.1 hr).1
      rw [List.getElem?_eq_getElem (hsize ▸ this)]
      exact .pure trivial
  refine hfetch.bind fun _ _ _ => ?_
  refine .modify (fun st st' h => ?_) trivial
  exact { h with allocaTypesSize := by simpa using h.allocaTypesSize }

/-- The end of a step that makes an instruction for its destination. -/
theorem alike_buildDst (iidx : InstructionIdx) {operands operands' : List Pointer}
    (h : operands' = operands.map (Pointer.rename ρ)) (indices : List (BitVec 32))
    (dst : Option RegisterIdx) : Alike s ρ f (do addDst dst (← build iidx operands indices))
      (do addDst dst (← build iidx operands' indices)) fun _ _ => True :=
  (alike_build iidx h indices).bind fun _ _ hv => alike_addDst dst hv

theorem alike_buildRegister (iidx : InstructionIdx) {operands operands' : List Pointer}
    (h : operands' = operands.map (Pointer.rename ρ)) (indices : List (BitVec 32))
    (r : RegisterIdx) : Alike s ρ f (do addRegister r (← build iidx operands indices))
      (do addRegister r (← build iidx operands' indices)) fun _ _ => True :=
  (alike_build iidx h indices).bind fun _ _ hv => alike_addRegister r hv

theorem alike_buildOnly (iidx : InstructionIdx) {operands operands' : List Pointer}
    (h : operands' = operands.map (Pointer.rename ρ)) :
    Alike s ρ f (do let _ ← build iidx operands []) (do let _ ← build iidx operands' [])
      fun _ _ => True :=
  (alike_build iidx h []).bind fun _ _ _ => .pure trivial

/-! ## Instructions -/

section
variable (iidx : InstructionIdx) (i : Instruction)

theorem alike_binary :
    Alike s ρ f (emitBinary s iidx i) (emitBinary (s.renamed ρ functions) iidx i)
      fun _ _ => True := by
  unfold emitBinary
  refine (coupled_operand _).bind fun lhs lhs' hl => (coupled_operand _).bind fun rhs rhs' hr => ?_
  subst hl hr
  cases i.dst with
  | none => exact .pure trivial
  | some dst =>
    refine (alike_resolveOperandValue lhs).bind fun v v' hv =>
      (alike_resolveOperandValue rhs).bind fun w w' hw => ?_
    exact alike_buildRegister iidx (by rw [hv, hw]; rfl) [] dst

theorem alike_not :
    Alike s ρ f (emitNot s iidx i) (emitNot (s.renamed ρ functions) iidx i) fun _ _ => True := by
  unfold emitNot
  refine (coupled_operand _).bind fun lhs lhs' hl => ?_
  subst hl
  cases i.dst with
  | none => exact .pure trivial
  | some dst =>
    refine (alike_resolveOperandValue lhs).bind fun v v' hv => ?_
    exact alike_buildRegister iidx (by rw [hv]; rfl) [] dst

theorem alike_bitReverse :
    Alike s ρ f (emitBitReverse s iidx i) (emitBitReverse (s.renamed ρ functions) iidx i)
      fun _ _ => True := by
  unfold emitBitReverse
  refine (alike_resolveAt _).bind fun v v' hv => ?_
  cases i.dst with
  | none => exact .pure trivial
  | some dst => exact alike_buildRegister iidx (by rw [hv]; rfl) [] dst

theorem alike_compare :
    Alike s ρ f (emitCompare s iidx i) (emitCompare (s.renamed ρ functions) iidx i)
      fun _ _ => True := by
  unfold emitCompare
  refine (coupled_operand _).bind fun lhs lhs' hl => (coupled_operand _).bind fun rhs rhs' hr => ?_
  subst hl hr
  refine (coupled_fetch _ _).bind fun node node' hn =>
    (alike_resolveOperandValue lhs).bind fun v v' hv =>
    (alike_resolveOperandValue rhs).bind fun w w' hw => ?_
  subst hn
  refine (coupled_orStop _).bind fun _ _ _ => ?_
  exact alike_buildDst iidx (by rw [hv, hw]; rfl) [] i.dst

theorem alike_typeCast :
    Alike s ρ f (emitTypeCast s iidx i) (emitTypeCast (s.renamed ρ functions) iidx i)
      fun _ _ => True := by
  unfold emitTypeCast
  cases i.dst with
  | none => exact .pure trivial
  | some dst =>
    refine (coupled_operand _).bind fun src src' hs => ?_
    subst hs
    refine (coupled_fetch _ _).bind fun srcNode srcNode' h₁ =>
      (coupled_fetch _ _).bind fun dstReg dstReg' h₂ => ?_
    subst h₁ h₂
    refine (coupled_fetch _ _).bind fun dstNode dstNode' h₃ =>
      (alike_resolveOperandValue src).bind fun v v' hv => (coupled_type _).bind fun _ _ _ => ?_
    subst h₃
    dsimp only
    by_cases htag : srcNode.tag = dstNode.tag
    · simp only [if_pos htag, pure_bind]
      exact alike_addRegister dst hv
    · simp only [if_neg htag]
      by_cases hcast : castable srcNode.tag dstNode.tag = true
      · simp only [if_pos hcast]
        exact alike_buildRegister iidx (by rw [hv]; rfl) [] dst
      · simp only [if_neg hcast, Traced.stop_bind]
        exact .stop

theorem alike_select :
    Alike s ρ f (emitSelect s iidx i) (emitSelect (s.renamed ρ functions) iidx i)
      fun _ _ => True := by
  unfold emitSelect
  refine (alike_resolveAt _).bind fun u u' hu => (alike_resolveAt _).bind fun v v' hv =>
    (alike_resolveAt _).bind fun w w' hw => ?_
  cases i.dst with
  | none => exact .pure trivial
  | some dst => exact alike_buildRegister iidx (by rw [hu, hv, hw]; rfl) [] dst

theorem alike_move :
    Alike s ρ f (emitMove s i) (emitMove (s.renamed ρ functions) i) fun _ _ => True := by
  unfold emitMove
  cases i.dst with
  | none => exact .pure trivial
  | some dst => exact (alike_resolveAt _).bind fun _ _ hv => alike_addRegister dst hv

theorem alike_alloca :
    Alike s ρ f (emitAlloca s iidx i) (emitAlloca (s.renamed ρ functions) iidx i)
      fun _ _ => True := by
  unfold emitAlloca
  cases i.dst with
  | none => exact .pure trivial
  | some dst =>
    refine (coupled_operand _).bind fun size size' hs => (coupled_fetch _ _).bind fun reg reg' hr =>
      ?_
    subst hs hr
    refine (coupled_type _).bind fun ty ty' ht =>
      (alike_resolveOperandValue size).bind fun v v' hv => ?_
    subst ht
    refine (alike_build iidx (by rw [hv]; rfl) []).bind fun w w' hw => ?_
    exact (alike_addRegister dst hw).bind fun _ _ _ => alike_addAllocaType dst ty

theorem alike_load :
    Alike s ρ f (emitLoad s iidx i) (emitLoad (s.renamed ρ functions) iidx i)
      fun _ _ => True := by
  unfold emitLoad
  cases i.dst with
  | none => exact .pure trivial
  | some dst =>
    refine (coupled_operand _).bind fun ptr ptr' hp => (coupled_fetch _ _).bind fun reg reg' hr => ?_
    subst hp hr
    refine (coupled_type _).bind fun _ _ _ => (alike_resolveOperandValue ptr).bind fun v v' hv => ?_
    exact alike_buildRegister iidx (by rw [hv]; rfl) [] dst

theorem alike_store :
    Alike s ρ f (emitStore s iidx i) (emitStore (s.renamed ρ functions) iidx i)
      fun _ _ => True := by
  unfold emitStore
  refine (coupled_operand _).bind fun lhs lhs' hl => (coupled_operand _).bind fun rhs rhs' hr => ?_
  subst hl hr
  refine (alike_resolveOperandValue lhs).bind fun v v' hv =>
    (alike_resolveOperandValue rhs).bind fun w w' hw => ?_
  exact alike_buildDst iidx (by rw [hv, hw]; rfl) [] i.dst

theorem alike_compareExchange :
    Alike s ρ f (emitCompareExchange s iidx i) (emitCompareExchange (s.renamed ρ functions) iidx i)
      fun _ _ => True := by
  unfold emitCompareExchange
  refine (alike_resolveAt _).bind fun u u' hu => (alike_resolveAt _).bind fun v v' hv =>
    (alike_resolveAt _).bind fun w w' hw => ?_
  exact alike_buildDst iidx (by rw [hu, hv, hw]; rfl) [] i.dst

theorem alike_getElementPtr :
    Alike s ρ f (emitGetElementPtr s iidx i) (emitGetElementPtr (s.renamed ρ functions) iidx i)
      fun _ _ => True := by
  unfold emitGetElementPtr
  refine (coupled_operand _).bind fun base base' hb => ?_
  subst hb
  rw [asRegister_rename]
  refine (coupled_orStop _).bind fun reg reg' hr => ?_
  subst hr
  refine (alike_allocaType _).bind fun _ _ _ => (alike_resolveAll _ _).bind fun vs vs' hvs =>
    (alike_resolveOperandValue base).bind fun v v' hv => ?_
  exact alike_buildDst iidx (by rw [hv, hvs]; rfl) [] i.dst

theorem alike_extractValue :
    Alike s ρ f (emitExtractValue s iidx i) (emitExtractValue (s.renamed ρ functions) iidx i)
      fun _ _ => True := by
  unfold emitExtractValue
  refine (alike_resolveAt _).bind fun v v' hv => (alike_indices _ _).bind fun is is' hi => ?_
  subst hi
  cases i.dst with
  | none => exact .pure trivial
  | some dst => exact alike_buildRegister iidx (by rw [hv]; rfl) is dst

theorem alike_insertValue :
    Alike s ρ f (emitInsertValue s iidx i) (emitInsertValue (s.renamed ρ functions) iidx i)
      fun _ _ => True := by
  unfold emitInsertValue
  refine (alike_resolveAt _).bind fun v v' hv => (alike_resolveAt _).bind fun w w' hw =>
    (alike_indices _ _).bind fun is is' hi => ?_
  subst hi
  cases i.dst with
  | none => exact .pure trivial
  | some dst => exact alike_buildRegister iidx (by rw [hv, hw]; rfl) is dst

theorem alike_incoming {current current' : Pointer} (hc : Renames ρ current current')
    (pidx : BlockParamIdx) : Alike s ρ f (emitIncoming s i current pidx)
      (emitIncoming (s.renamed ρ functions) i current' pidx) fun _ _ => True := by
  unfold emitIncoming
  refine (coupled_fetch _ _).bind fun param param' hp => ?_
  subst hp
  refine (alike_registerValue _).bind fun phi phi' hphi => (alike_resolveAt _).bind fun v v' hv => ?_
  exact .tell (fun _ => by rw [hphi, hv, hc]; rfl) trivial

theorem alike_br :
    Alike s ρ f (emitBr s iidx i) (emitBr (s.renamed ρ functions) iidx i) fun _ _ => True := by
  unfold emitBr
  refine (coupled_operand _).bind fun target target' ht => ?_
  subst ht
  rw [asBlock_rename]
  refine (coupled_orStop _).bind fun b b' hb => ?_
  subst hb
  refine (coupled_blockValue b).bind fun v v' hv => Coupled.get.bind fun st st' hst => ?_
  refine (alike_build iidx (by rw [hv]; rfl) []).bind fun _ _ _ =>
    (coupled_fetch _ _).bind fun block block' hb => ?_
  subst hb
  exact .forM (fun _ _ => alike_incoming i (hst.insertBlock trivial) _) trivial

theorem alike_condBr :
    Alike s ρ f (emitCondBr s iidx i) (emitCondBr (s.renamed ρ functions) iidx i)
      fun _ _ => True := by
  unfold emitCondBr
  refine (alike_resolveAt _).bind fun u u' hu => (alike_blockAt _).bind fun v v' hv =>
    (alike_blockAt _).bind fun w w' hw => ?_
  exact alike_buildOnly iidx (by rw [hu, hv, hw]; rfl)

theorem alike_case (offset : Nat) :
    Alike s ρ f (emitCase s i offset) (emitCase (s.renamed ρ functions) i offset)
      fun l l' => l' = l.map (Pointer.rename ρ) := by
  unfold emitCase
  refine (alike_resolveAt _).bind fun v v' hv => (alike_blockAt _).bind fun w w' hw => ?_
  exact .pure (by rw [hv, hw]; rfl)

theorem forall₂_flatten {l l' : List (List Pointer)}
    (h : List.Forall₂ (fun l l' => l' = l.map (Pointer.rename ρ)) l l') :
    l'.flatten = l.flatten.map (Pointer.rename ρ) := by
  induction h with
  | nil => rfl
  | cons h _ ih => rw [List.flatten_cons, h, ih, List.flatten_cons, List.map_append]

theorem alike_switch :
    Alike s ρ f (emitSwitch s iidx i) (emitSwitch (s.renamed ρ functions) iidx i)
      fun _ _ => True := by
  unfold emitSwitch
  refine (alike_resolveAt _).bind fun v v' hv => (alike_blockAt _).bind fun w w' hw =>
    (Coupled.mapM fun offset _ => alike_case i offset).bind fun cases cases' hc => ?_
  exact alike_buildOnly iidx (by rw [hv, hw, forall₂_flatten hc]; rfl)

theorem alike_call :
    Alike s ρ f (emitCall s iidx i) (emitCall (s.renamed ρ functions) iidx i)
      fun _ _ => True := by
  unfold emitCall
  refine (coupled_operand _).bind fun callee callee' hc => ?_
  subst hc
  refine (alike_resolveOperandFunction callee).bind fun v v' hv =>
    (alike_resolveAll _ _).bind fun vs vs' hvs => ?_
  exact alike_buildDst iidx (by rw [hv, hvs]; rfl) [] i.dst

theorem alike_ret :
    Alike s ρ f (emitRet s iidx i) (emitRet (s.renamed ρ functions) iidx i)
      fun _ _ => True := by
  unfold emitRet
  split
  · exact alike_buildOnly iidx rfl
  · exact (alike_resolveAt _).bind fun v v' hv => alike_buildOnly iidx (by rw [hv]; rfl)

/-- **One instruction.** -/
theorem alike_instruction :
    Alike s ρ f (emitInstruction s iidx i) (emitInstruction (s.renamed ρ functions) iidx i)
      fun _ _ => True := by
  unfold emitInstruction
  cases i.op
  case noop | drop => exact .pure trivial
  case not => exact alike_not iidx i
  case bitReverse => exact alike_bitReverse iidx i
  case eq | ne | le | lt | ge | gt => exact alike_compare iidx i
  case typeCast => exact alike_typeCast iidx i
  case select => exact alike_select iidx i
  case move => exact alike_move i
  case alloca => exact alike_alloca iidx i
  case load | atomicLoad => exact alike_load iidx i
  case store | atomicStore | atomicRmw => exact alike_store iidx i
  case atomicCompareExchange => exact alike_compareExchange iidx i
  case getElementPtr => exact alike_getElementPtr iidx i
  case extractValue => exact alike_extractValue iidx i
  case insertValue => exact alike_insertValue iidx i
  case br => exact alike_br iidx i
  case condBr => exact alike_condBr iidx i
  case switch => exact alike_switch iidx i
  case call => exact alike_call iidx i
  case ret => exact alike_ret iidx i
  case unreachable | fence => exact alike_buildOnly iidx rfl
  all_goals exact alike_binary iidx i

end

/-! ## Blocks and functions -/

/-- Two runs on behalf of the function before and after its blocks are entered. -/
abbrev AlikeFrom {α β : Type} (s : Storage) (ρ : FunctionIdx → FunctionIdx) (f : FunctionIdx)
    (before after : Prop) (m : EmitM α) (m' : EmitM β) (Q : α → β → Prop) : Prop :=
  Coupled (Event.OwnOf s f) (Event.rename ρ) (Agree s ρ f before) (Agree s ρ f after) m m' Q

theorem alike_phi (pidx : BlockParamIdx) :
    Alike s ρ f (emitPhi s pidx) (emitPhi (s.renamed ρ functions) pidx) fun _ _ => True := by
  unfold emitPhi
  refine (coupled_fetch _ _).bind fun param param' hp => ?_
  subst hp
  refine (coupled_type _).bind fun ty ty' ht => ?_
  subst ht
  refine (Coupled.tell (Q := fun _ _ => True) (fun _ => rfl) trivial).bind fun _ _ _ => ?_
  exact alike_addRegister _ rfl

theorem alike_instr (iidx : InstructionIdx) :
    Alike s ρ f (emitInstr s iidx) (emitInstr (s.renamed ρ functions) iidx) fun _ _ => True := by
  unfold emitInstr
  refine (coupled_fetch _ _).bind fun i i' hi => ?_
  subst hi
  exact alike_instruction iidx i

theorem Agree.leave {st st' : LlvmIrStorage} (h : Agree s ρ f True st st') :
    Agree s ρ f False st st' :=
  { h with insertBlock := False.elim }

theorem alike_enter (bidx : BlockIdx) :
    AlikeFrom s ρ f False True (enterBlock s bidx) (enterBlock (s.renamed ρ functions) bidx)
      Eq := by
  unfold enterBlock setInsertPoint
  simp only [bind_assoc]
  refine (coupled_fetch _ _).bind fun block block' hb => ?_
  subst hb
  refine (coupled_blockValue bidx).bind fun v v' hv => ?_
  refine (Coupled.modify (S := Agree s ρ f True) (Q := fun _ _ => True) (fun st st' h => ?_)
    trivial).bind fun _ _ _ => .pure rfl
  exact { h with insertBlock := fun _ => hv }

/-- A block's pass over its phi nodes, or over its instructions. -/
theorem alike_pass (bidx : BlockIdx) (range : Block → IdxRange) {step step' : Nat → EmitM Unit}
    (h : ∀ i, Alike s ρ f (step i) (step' i) fun _ _ => True) :
    AlikeFrom s ρ f False False
      (do let block ← enterBlock s bidx
          (range block).toList.forM step)
      (do let block ← enterBlock (s.renamed ρ functions) bidx
          (range block).toList.forM step') fun _ _ => True := by
  refine (alike_enter bidx).bind fun block block' hb => ?_
  subst hb
  exact (Coupled.forM (fun i _ => h i) trivial).weaken (fun _ _ h => h) (fun _ _ h => h.leave)
    fun _ _ h => h

theorem alike_addBlock (bidx : BlockIdx) :
    AlikeFrom s ρ f False False (addBlock bidx) (addBlock bidx) fun _ _ => True := by
  unfold addBlock
  refine Coupled.get.bind fun st st' h => ?_
  have hfetch : AlikeFrom s ρ f False False (fetch st.blocks bidx) (fetch st'.blocks bidx)
      fun _ _ => True := by
    unfold fetch
    cases hr : st.blocks[bidx]? with
    | none =>
      rw [getElem?_none_of_length h.blocksSize hr]
      exact .stop
    | some old =>
      have := (List.getElem?_eq_some_iff.1 hr).1
      rw [List.getElem?_eq_getElem (h.blocksSize ▸ this)]
      exact .pure trivial
  refine hfetch.bind fun _ _ _ => ?_
  refine (Coupled.tell (Q := fun _ _ => True) (fun _ => rfl) trivial).bind fun _ _ _ => ?_
  refine .modify (fun st st' h => ?_) trivial
  exact { h with
    blocks := fun b hb =>
      getElem?_set_renamed (v := some (.block bidx)) h.blocksSize (h.blocks b hb)
    blocksSize := by simpa using h.blocksSize }

theorem createFunction_renamed (functionMeta : FunctionMeta) :
    createFunction (s.renamed ρ functions) functionMeta = createFunction s functionMeta := by
  unfold createFunction
  rw [show type (s.renamed ρ functions) = type s from funext type_renamed]

theorem coupled_createFunction {R : LlvmIrStorage → LlvmIrStorage → Prop}
    (functionMeta : FunctionMeta) : Coupled (Event.OwnOf s f) (Event.rename ρ) R R
      (createFunction s functionMeta) (createFunction (s.renamed ρ functions) functionMeta)
      Eq := by
  rw [createFunction_renamed]
  unfold createFunction
  have htype (idx : TypeIdx) : Coupled (Event.OwnOf s f) (Event.rename ρ) R R
      (type s idx) (type s idx) Eq := coupled_orStop _
  refine (Coupled.mapM fun _ _ => htype _).bind fun params params' hp =>
    (htype _).bind fun result result' hr => ?_
  rw [List.forall₂_eq_eq_eq] at hp
  subst hp hr
  exact .pure rfl

theorem getElem?_set_own {l l' : List Pointer} {i j : Nat} {v : Pointer}
    (h : l'[j]? = (l[i]?).map (Pointer.rename ρ)) :
    (l'.set j (Pointer.rename ρ v))[j]? = ((l.set i v)[i]?).map (Pointer.rename ρ) := by
  rw [List.getElem?_set_self', List.getElem?_set_self', h]
  cases l[i]? <;> rfl

theorem alike_declareFunction (hf : functions[ρ f]? = s.functions[f]?) :
    AlikeFrom s ρ f False False (declareFunction s f)
      (declareFunction (s.renamed ρ functions) (ρ f)) Eq := by
  unfold declareFunction
  have hfunc : AlikeFrom s ρ f False False (fetch s.functions f)
      (fetch (s.renamed ρ functions).functions (ρ f)) Eq := by
    unfold fetch
    rw [show (s.renamed ρ functions).functions[ρ f]? = s.functions[f]? from hf]
    cases s.functions[f]? with
    | none => exact .stop
    | some func => exact .pure rfl
  refine hfunc.bind fun func func' h => ?_
  subst h
  refine (coupled_createFunction _).bind fun signature signature' h => ?_
  subst h
  refine Coupled.get.bind fun st st' h => ?_
  have hfetch : AlikeFrom s ρ f False False (fetch st.functions f) (fetch st'.functions (ρ f))
      fun _ _ => True := by
    unfold fetch
    rw [h.functions]
    cases st.functions[f]? with
    | none => exact .stop
    | some old => exact .pure trivial
  refine hfetch.bind fun _ _ _ => ?_
  refine (Coupled.tell (Q := fun _ _ => True) (fun _ => rfl) trivial).bind fun _ _ _ => ?_
  refine (Coupled.modify (S := Agree s ρ f False) (Q := fun _ _ => True) (fun st st' h => ?_)
    trivial).bind fun _ _ _ => .pure rfl
  exact { h with
    functions := getElem?_set_own (v := some (.function f)) h.functions
    functionsSize := by simpa using h.functionsSize }

/-- **One function.** -/
theorem alike_function (hf : functions[ρ f]? = s.functions[f]?) :
    AlikeFrom s ρ f False False (emitFunction s f)
      (emitFunction (s.renamed ρ functions) (ρ f)) fun _ _ => True := by
  unfold emitFunction
  refine (alike_declareFunction hf).bind fun func func' h => ?_
  subst h
  unfold emitBlocks
  refine (Coupled.forM (Q := fun _ _ => True) (fun b _ => alike_addBlock b) trivial).bind
    fun _ _ _ => ?_
  refine (Coupled.forM (Q := fun _ _ => True)
    (fun b _ => alike_pass b Block.blockParams fun _ => alike_phi _) trivial).bind fun _ _ _ => ?_
  exact .forM (fun b _ => alike_pass b Block.instrs fun _ => alike_instr _) trivial

end Alcy.Codegen
