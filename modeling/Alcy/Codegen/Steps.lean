import Alcy.Codegen.Walk

/-! # What one step of the walk does

Every step looks values up, and then writes at most one entry of the maps (`emits_step`). What it
finds is what the maps held when the step began. The value it writes is not null, unless a lookup of
its own returned null: an alias of a null entry is null.
-/
namespace Alcy.Codegen

open Alcy.Ir Alcy.Lib Alcy.Lib.Traced

namespace Event

/-- A lookup that found what the maps `st` hold, or a request to LLVM. -/
def ReadOf (st : LlvmIrStorage) : Event → Prop
  | .functionValue idx found => st.functions[idx]? = some found
  | .externalFunctionValue idx found => st.externalFunctions[idx]? = some found
  | .registerValue idx found => st.registers[idx]? = some found
  | .blockValue idx found => st.blocks[idx]? = some found
  | .immutableValue idx found => st.immutables[idx]? = some found
  | .build .. | .buildPhi .. | .addIncoming .. => True
  | .addFunction .. | .addExternalFunction .. | .addRegister .. | .addBlock .. | .addImmutable .. =>
    False

/-- A write of the entry of `w`, if it is the entry of a register. -/
def WriteOf (w : Option RegisterIdx) : Event → Prop
  | .addRegister idx _ => w = some idx
  | .addFunction .. | .addBlock .. => True
  | _ => False

/-- A lookup of an operand's value, or of a branch target, that returned null. -/
def isNull : Event → Bool
  | .registerValue _ found | .blockValue _ found | .immutableValue _ found => found.isNone
  | _ => false

/-- Not a null lookup. -/
def Clean (e : Event) : Prop := e.isNull = false

end Event

open Event

/-- An entry that a declaration writes. -/
inductive Entry where
  | block (idx : BlockIdx)
  | function (idx : FunctionIdx)
  deriving DecidableEq

/-- The map of blocks after a declaration. -/
def blocksAfter (blocks : List Pointer) : Option Entry → List Pointer
  | some (.block b) => blocks.set b (some (.block b))
  | _ => blocks

/-- The map of functions after a declaration. -/
def functionsAfter (functions : List Pointer) : Option Entry → List Pointer
  | some (.function f) => functions.set f (some (.function f))
  | _ => functions

/-- A computation that only looks values up. -/
abbrev Looks {α : Type} (m : EmitM α) (Q : α → Prop) : Prop := Reads ReadOf Clean m Q

variable {s : Storage} {known : Prop} {w : Option RegisterIdx} {d : Option Entry}

/-! ## Lookups -/

theorem looks_fetch {α : Type} (table : List α) (idx : Nat) :
    Looks (fetch table idx) fun _ => True := by
  unfold fetch
  split
  · exact .pure trivial
  · exact .stop

theorem looks_get : Looks Traced.get fun _ => True := .get

theorem looks_orStop {α : Type} (data : Option α) : Looks (orStop data) fun _ => True := by
  unfold orStop
  split
  · exact .pure trivial
  · exact .stop

theorem looks_type (idx : TypeIdx) : Looks (type s idx) fun _ => True := looks_orStop _

/-- A lookup in one of the maps, which logs what it found. -/
theorem looks_map (map : LlvmIrStorage → List Pointer) (event : Nat → Pointer → Event)
    (hread : ∀ st i v, (map st)[i]? = some v → (event i v).ReadOf st) {Q : Pointer → Prop}
    (hnull : ∀ i v, (event i v).Clean → Q v) (idx : Nat) :
    Looks (do let found ← fetch (map (← Traced.get)) idx
              Traced.tell (event idx found)
              pure found) Q := by
  have hrun (st : LlvmIrStorage) (found : Pointer) (h : (map st)[idx]? = some found) :
      (do let found ← fetch (map (← Traced.get)) idx
          Traced.tell (event idx found)
          pure found : EmitM Pointer) st = ⟨[event idx found], some (found, st)⟩ := by
    simp only [bind_def, resume, Traced.get, fetch, h, Traced.tell, pure_run, List.nil_append,
      List.append_nil]
  have hstop (st : LlvmIrStorage) (h : (map st)[idx]? = none) :
      (do let found ← fetch (map (← Traced.get)) idx
          Traced.tell (event idx found)
          pure found : EmitM Pointer) st = ⟨[], none⟩ := by
    simp only [bind_def, resume, Traced.get, fetch, h, Traced.stop, List.nil_append]
  refine ⟨fun st e he => ?_, fun st a st' hr => ?_, fun st a st' hr hc => ?_⟩ <;>
    rcases h : (map st)[idx]? with _ | found
  · rw [hstop st h] at he
    cases he
  · rw [hrun st found h, List.mem_singleton] at he
    exact he ▸ hread st idx found h
  · rw [hstop st h] at hr
    cases hr
  · rw [hrun st found h] at hr
    cases hr
    rfl
  · rw [hstop st h] at hr
    cases hr
  · rw [hrun st found h] at hr hc
    cases hr
    exact hnull idx _ (hc _ (List.mem_singleton_self _))

theorem some_of_clean {found : Pointer} (h : found.isNone = false) : found.isSome = true := by
  simpa using h

theorem looks_registerValue (idx : RegisterIdx) :
    Looks (registerValue idx) fun v => v.isSome = true :=
  looks_map LlvmIrStorage.registers .registerValue (fun _ _ _ h => h)
    (fun _ _ h => some_of_clean h) idx

theorem looks_blockValue (idx : BlockIdx) : Looks (blockValue idx) fun v => v.isSome = true :=
  looks_map LlvmIrStorage.blocks .blockValue (fun _ _ _ h => h) (fun _ _ h => some_of_clean h) idx

theorem looks_immutableValue (idx : ImmutableIdx) :
    Looks (immutableValue idx) fun v => v.isSome = true :=
  looks_map LlvmIrStorage.immutables .immutableValue (fun _ _ _ h => h)
    (fun _ _ h => some_of_clean h) idx

theorem looks_resolveOperandValue (op : Operand) :
    Looks (resolveOperandValue op) fun v => v.isSome = true := by
  unfold resolveOperandValue
  cases op.data with
  | register idx => exact looks_registerValue idx
  | block idx => exact looks_blockValue idx
  | immutable idx => exact looks_immutableValue idx
  | function | externalFunction | void => exact .stop

theorem looks_resolveOperandFunction (op : Operand) :
    Looks (resolveOperandFunction op) fun _ => True := by
  unfold resolveOperandFunction
  cases op.data with
  | function idx =>
    exact looks_map LlvmIrStorage.functions .functionValue (fun _ _ _ h => h)
      (fun _ _ _ => trivial) idx
  | externalFunction idx =>
    exact looks_map LlvmIrStorage.externalFunctions .externalFunctionValue (fun _ _ _ h => h)
      (fun _ _ _ => trivial) idx
  | register | block | immutable | void => exact .stop

theorem looks_resolveAt (idx : OperandIdx) : Looks (resolveAt s idx) fun v => v.isSome = true :=
  (looks_fetch _ _).bind fun _ => (looks_resolveOperandValue _).mono fun _ h _ => h

theorem looks_blockAt (idx : OperandIdx) : Looks (blockAt s idx) fun v => v.isSome = true :=
  (looks_fetch _ _).bind fun _ => (looks_orStop _).bind fun _ =>
    (looks_blockValue _).mono fun _ h _ _ => h

theorem looks_aggregateIndex (idx : OperandIdx) : Looks (aggregateIndex s idx) fun _ => True :=
  (looks_fetch _ _).bind fun _ => (looks_orStop _).bind fun _ => (looks_fetch _ _).bind fun _ =>
    (looks_fetch _ _).bind fun _ => (looks_orStop _).bind fun _ =>
      .pure fun _ _ _ _ _ => trivial

theorem looks_build (iidx : InstructionIdx) (operands : List Pointer)
    (indices : List (BitVec 32)) : Looks (build iidx operands indices) fun v => v.isSome = true :=
  Reads.bind (Q := fun _ => True) (.tell (fun _ => trivial) trivial) fun _ => .pure fun _ => rfl

/-! ## One write -/

/-- The maps after a run that finished: the entries of `w` and `d` are written, the others are as
before. -/
structure After (w : Option RegisterIdx) (d : Option Entry) (st : LlvmIrStorage)
    (writes : List Event) (st' : LlvmIrStorage) (clean : Prop) : Prop where
  noRegister : w = none → st'.registers = st.registers
  register : ∀ r, w = some r → ∃ v, writes = [.addRegister r v] ∧ r < st.registers.length ∧
    st'.registers = st.registers.set r v ∧ (clean → v.isSome = true)
  blocks : st'.blocks = blocksAfter st.blocks d
  functions : st'.functions = functionsAfter st.functions d
  externalFunctions : st'.externalFunctions = st.externalFunctions
  immutables : st'.immutables = st.immutables
  allocaTypes : st'.allocaTypes.length = st.allocaTypes.length

/-- A run taken apart: first lookups, then at most one write. -/
structure Split (known : Prop) (w : Option RegisterIdx) (d : Option Entry) (st : LlvmIrStorage)
    (out : Outcome LlvmIrStorage Event Unit) (reads writes : List Event) : Prop where
  log : out.log = reads ++ writes
  isRead : ∀ e ∈ reads, e.ReadOf st
  isWrite : ∀ e ∈ writes, e.WriteOf w
  once : writes.length ≤ 1
  after : ∀ u st', out.result = some (u, st') →
    After w d st writes st' (known ∧ ∀ e ∈ reads, e.Clean)

/-- `m` looks values up, then writes the entries of `w` and `d`. `known` is what makes the written
value not null. -/
def Emits (known : Prop) (w : Option RegisterIdx) (d : Option Entry) (m : EmitM Unit) : Prop :=
  ∀ st, ∃ reads writes, Split known w d st (m st) reads writes

theorem After.unchanged {st : LlvmIrStorage} {clean : Prop} : After none none st [] st clean :=
  ⟨fun _ => rfl, nofun, rfl, rfl, rfl, rfl, rfl⟩

/-- The maps after a declaration. -/
theorem After.declared {st st' : LlvmIrStorage} {writes : List Event} {clean : Prop}
    (hr : st'.registers = st.registers) (hb : st'.blocks = blocksAfter st.blocks d)
    (hf : st'.functions = functionsAfter st.functions d)
    (he : st'.externalFunctions = st.externalFunctions) (hi : st'.immutables = st.immutables)
    (ha : st'.allocaTypes = st.allocaTypes) : After none d st writes st' clean :=
  ⟨fun _ => hr, nofun, hb, hf, he, hi, congrArg _ ha⟩

/-- The maps after the write of a register. -/
theorem After.written {st : LlvmIrStorage} {r : RegisterIdx} {v : Pointer} {clean : Prop}
    (hr : r < st.registers.length) (hv : clean → v.isSome = true) :
    After (some r) none st [.addRegister r v] { st with registers := st.registers.set r v }
      clean := by
  refine ⟨nofun, fun q hq => ?_, rfl, rfl, rfl, rfl, rfl⟩
  cases hq
  exact ⟨v, rfl, hr, rfl, hv⟩

theorem Split.stopped {st : LlvmIrStorage} : Split known w d st ⟨[], Option.none⟩ [] [] :=
  ⟨rfl, nofun, nofun, Nat.zero_le 1, nofun⟩

/-- A run that is one write. -/
theorem Split.wrote {st st' : LlvmIrStorage} {e : Event} (he : e.WriteOf w)
    (ha : After w d st [e] st' known) : Split known w d st ⟨[e], some ((), st')⟩ [] [e] := by
  refine ⟨rfl, nofun, List.forall_mem_singleton.2 he, Nat.le_refl 1, fun u st' h => ?_⟩
  cases h
  exact ⟨ha.noRegister, fun r hr => by simpa using ha.register r hr, ha.blocks, ha.functions,
    ha.externalFunctions, ha.immutables, ha.allocaTypes⟩

theorem Emits.ofReads {m : EmitM Unit} {Q : Unit → Prop} (h : Looks m Q) :
    Emits known none none m := by
  intro st
  refine ⟨(m st).log, [], (List.append_nil _).symm, h.log st, nofun, Nat.zero_le 1,
    fun u st' hr => ?_⟩
  rw [h.state st u st' hr]
  exact .unchanged

/-- **Lookups first.** What they find is known to the rest of the step. -/
theorem Emits.bind {α : Type} {m : EmitM α} {k : α → EmitM Unit} {Q : α → Prop}
    (hm : Looks m Q) (hk : ∀ a, Emits (known ∧ Q a) w d (k a)) : Emits known w d (m >>= k) := by
  intro st
  rcases bind_cases (m := m) (k := k) st with ⟨_, h⟩ | ⟨a, st₁, hres, h⟩
  · refine ⟨(m st).log, [], ?_⟩
    rw [h]
    exact ⟨(List.append_nil _).symm, hm.log st, nofun, Nat.zero_le 1, nofun⟩
  · obtain rfl := hm.state st a st₁ hres
    obtain ⟨reads, writes, hlog, hreads, hwrites, honce, hafter⟩ := hk a st₁
    refine ⟨(m st₁).log ++ reads, writes, ?_⟩
    rw [h]
    refine ⟨by simp [hlog], List.forall_mem_append.2 ⟨hm.log st₁, hreads⟩, hwrites, honce,
      fun u st' hr => ?_⟩
    have ha := hafter u st' hr
    refine ⟨ha.noRegister, fun r hw => ?_, ha.blocks, ha.functions, ha.externalFunctions,
      ha.immutables, ha.allocaTypes⟩
    obtain ⟨v, hv, hlt, hset, hsome⟩ := ha.register r hw
    refine ⟨v, hv, hlt, hset, fun ⟨hknown, hclean⟩ => ?_⟩
    have hclean := List.forall_mem_append.1 hclean
    exact hsome ⟨⟨hknown, hm.value st₁ a st₁ hres hclean.1⟩, hclean.2⟩

theorem emits_addRegister {r : RegisterIdx} {v : Pointer} (hv : known → v.isSome = true) :
    Emits known (some r) none (addRegister r v) := by
  intro st
  cases hr : st.registers[r]? with
  | none =>
    refine ⟨[], [], ?_⟩
    simp only [addRegister, bind_def, resume, Traced.get, fetch, hr, Traced.stop, List.append_nil]
    exact .stopped
  | some old =>
    refine ⟨[], [.addRegister r v], ?_⟩
    simp only [addRegister, bind_def, resume, Traced.get, fetch, hr, Traced.tell, Traced.modify,
      pure_run, List.nil_append, List.append_nil]
    exact .wrote rfl (.written (List.getElem?_eq_some_iff.1 hr).1 hv)

theorem emits_addDst {dst : Option RegisterIdx} {v : Pointer} (hv : known → v.isSome = true) :
    Emits known dst none (addDst dst v) := by
  cases dst with
  | none => exact .ofReads (.pure (Q := fun _ => True) trivial)
  | some r => exact emits_addRegister hv

/-- The element type that an `Alloca` records is not in the value maps. -/
theorem Emits.recordAllocaType {m : EmitM Unit} {idx : RegisterIdx} {ty : LlvmType}
    (h : Emits known w d m) : Emits known w d (do m; addAllocaType idx ty) := by
  intro st
  obtain ⟨reads, writes, hs⟩ := h st
  refine ⟨reads, writes, ?_⟩
  rcases bind_cases (m := m) (k := fun _ => addAllocaType idx ty) st with
    ⟨hr, h⟩ | ⟨u, st₁, hr, h⟩ <;> rw [h]
  · exact ⟨hs.log, hs.isRead, hs.isWrite, hs.once, nofun⟩
  · have ha := hs.after u st₁ hr
    cases hi : st₁.allocaTypes[idx]? <;>
      simp only [addAllocaType, bind_def, resume, Traced.get, fetch, hi, Traced.stop,
        Traced.modify, pure_run, List.append_nil]
    · exact ⟨hs.log, hs.isRead, hs.isWrite, hs.once, nofun⟩
    · refine ⟨hs.log, hs.isRead, hs.isWrite, hs.once, fun u st' h => ?_⟩
      cases h
      exact ⟨ha.noRegister, ha.register, ha.blocks, ha.functions, ha.externalFunctions,
        ha.immutables, by simpa using ha.allocaTypes⟩

/-! ## Instructions -/

/-- The end of a step that makes an instruction for its destination. -/
theorem emits_build {iidx : InstructionIdx} {operands : List Pointer}
    {indices : List (BitVec 32)} {r : RegisterIdx} :
    Emits known (some r) none (do addRegister r (← build iidx operands indices)) :=
  .bind (looks_build ..) fun _ => emits_addRegister fun h => h.2

theorem emits_buildDst {iidx : InstructionIdx} {operands : List Pointer}
    {indices : List (BitVec 32)} {dst : Option RegisterIdx} :
    Emits known dst none (do addDst dst (← build iidx operands indices)) :=
  .bind (looks_build ..) fun _ => emits_addDst fun h => h.2

/-- An instruction whose result nobody takes. -/
theorem emits_noop : Emits known none none (pure ()) :=
  .ofReads (.pure (Q := fun _ => True) trivial)

theorem emits_buildOnly {iidx : InstructionIdx} {operands : List Pointer} :
    Emits known none none (do let _ ← build iidx operands []) :=
  .bind (looks_build ..) fun _ => emits_noop

theorem emits_stop : Emits known w d Traced.stop :=
  fun _ => ⟨[], [], rfl, nofun, nofun, Nat.zero_le 1, nofun⟩

section
variable (iidx : InstructionIdx) (i : Instruction)

theorem emits_binary : Emits known i.dst none (emitBinary s iidx i) := by
  unfold emitBinary
  refine .bind (looks_fetch ..) fun lhs => .bind (looks_fetch ..) fun rhs => ?_
  cases i.dst with
  | none => exact emits_noop
  | some dst =>
    exact .bind (looks_resolveOperandValue _) fun _ => .bind (looks_resolveOperandValue _)
      fun _ => emits_build

theorem emits_not : Emits known i.dst none (emitNot s iidx i) := by
  unfold emitNot
  refine .bind (looks_fetch ..) fun lhs => ?_
  cases i.dst with
  | none => exact emits_noop
  | some dst => exact .bind (looks_resolveOperandValue _) fun _ => emits_build

theorem emits_bitReverse : Emits known i.dst none (emitBitReverse s iidx i) := by
  unfold emitBitReverse
  refine .bind (looks_resolveAt _) fun value => ?_
  cases i.dst with
  | none => exact emits_noop
  | some dst => exact emits_build

theorem emits_compare : Emits known i.dst none (emitCompare s iidx i) := by
  unfold emitCompare
  exact .bind (looks_fetch ..) fun _ => .bind (looks_fetch ..) fun _ =>
    .bind (looks_fetch ..) fun _ => .bind (looks_resolveOperandValue _) fun _ =>
    .bind (looks_resolveOperandValue _) fun _ => .bind (looks_orStop _) fun _ => emits_buildDst

theorem emits_typeCast : Emits known i.dst none (emitTypeCast s iidx i) := by
  unfold emitTypeCast
  cases i.dst with
  | none => exact emits_noop
  | some dst =>
    refine .bind (looks_fetch ..) fun src => .bind (looks_fetch ..) fun srcNode =>
      .bind (looks_fetch ..) fun dstReg => .bind (looks_fetch ..) fun dstNode =>
      .bind (looks_resolveOperandValue _) fun value => .bind (looks_type _) fun _ => ?_
    dsimp only
    -- A cast between equal tags is an alias of its operand.
    by_cases htag : srcNode.tag = dstNode.tag
    · simp only [if_pos htag, pure_bind]
      exact emits_addRegister fun h => h.1.2
    · simp only [if_neg htag]
      by_cases hcast : castable srcNode.tag dstNode.tag = true
      · simp only [if_pos hcast]
        exact emits_build
      · simp only [if_neg hcast, Traced.stop_bind]
        exact emits_stop

theorem emits_select : Emits known i.dst none (emitSelect s iidx i) := by
  unfold emitSelect
  refine .bind (looks_resolveAt _) fun _ => .bind (looks_resolveAt _) fun _ =>
    .bind (looks_resolveAt _) fun _ => ?_
  cases i.dst with
  | none => exact emits_noop
  | some dst => exact emits_build

theorem emits_move : Emits known i.dst none (emitMove s i) := by
  unfold emitMove
  cases i.dst with
  | none => exact emits_noop
  | some dst => exact .bind (looks_resolveAt _) fun _ => emits_addRegister fun h => h.2

theorem emits_alloca : Emits known i.dst none (emitAlloca s iidx i) := by
  unfold emitAlloca
  cases i.dst with
  | none => exact emits_noop
  | some dst =>
    refine .bind (looks_fetch ..) fun _ => .bind (looks_fetch ..) fun _ =>
      .bind (looks_type _) fun _ => .bind (looks_resolveOperandValue _) fun _ => ?_
    exact .bind (looks_build ..) fun _ => .recordAllocaType (emits_addRegister fun h => h.2)

theorem emits_load : Emits known i.dst none (emitLoad s iidx i) := by
  unfold emitLoad
  cases i.dst with
  | none => exact emits_noop
  | some dst =>
    exact .bind (looks_fetch ..) fun _ => .bind (looks_fetch ..) fun _ =>
      .bind (looks_type _) fun _ => .bind (looks_resolveOperandValue _) fun _ => emits_build

theorem emits_store : Emits known i.dst none (emitStore s iidx i) := by
  unfold emitStore
  exact .bind (looks_fetch ..) fun _ => .bind (looks_fetch ..) fun _ =>
    .bind (looks_resolveOperandValue _) fun _ => .bind (looks_resolveOperandValue _)
    fun _ => emits_buildDst

theorem emits_compareExchange : Emits known i.dst none (emitCompareExchange s iidx i) := by
  unfold emitCompareExchange
  exact .bind (looks_resolveAt _) fun _ => .bind (looks_resolveAt _) fun _ =>
    .bind (looks_resolveAt _) fun _ => emits_buildDst

theorem looks_all {α : Type} {l : List Nat} {f : Nat → EmitM α} {Q : α → Prop}
    (h : ∀ x, Looks (f x) Q) : Looks (l.mapM f) fun _ => True :=
  .mapM (fun x _ => (h x).mono fun _ _ => trivial) fun _ => trivial

theorem looks_allocaType (idx : RegisterIdx) : Looks (allocaType idx) fun _ => True :=
  looks_get.bind fun _ => (looks_fetch ..).mono fun _ _ _ => trivial

theorem emits_getElementPtr : Emits known i.dst none (emitGetElementPtr s iidx i) := by
  unfold emitGetElementPtr
  exact .bind (looks_fetch ..) fun _ => .bind (looks_orStop _) fun _ =>
    .bind (looks_allocaType _) fun _ => .bind (looks_all fun _ => looks_resolveAt _) fun _ =>
    .bind (looks_resolveOperandValue _) fun _ => emits_buildDst

theorem emits_extractValue : Emits known i.dst none (emitExtractValue s iidx i) := by
  unfold emitExtractValue
  refine .bind (looks_resolveAt _) fun _ =>
    .bind (looks_all fun _ => looks_aggregateIndex _) fun _ => ?_
  cases i.dst with
  | none => exact emits_noop
  | some dst => exact emits_build

theorem emits_insertValue : Emits known i.dst none (emitInsertValue s iidx i) := by
  unfold emitInsertValue
  refine .bind (looks_resolveAt _) fun _ => .bind (looks_resolveAt _) fun _ =>
    .bind (looks_all fun _ => looks_aggregateIndex _) fun _ => ?_
  cases i.dst with
  | none => exact emits_noop
  | some dst => exact emits_build

theorem looks_incoming (current : Pointer) (pidx : BlockParamIdx) :
    Looks (emitIncoming s i current pidx) fun _ => True :=
  (looks_fetch ..).bind fun _ => (looks_registerValue _).bind fun _ => (looks_resolveAt _).bind
    fun _ => .tell (fun _ => trivial) fun _ _ _ => trivial

theorem emits_br : Emits known none none (emitBr s iidx i) := by
  unfold emitBr
  exact .bind (looks_fetch ..) fun _ => .bind (looks_orStop _) fun _ =>
    .bind (looks_blockValue _) fun _ => .bind looks_get fun _ => .bind (looks_build ..) fun _ =>
    .bind (looks_fetch ..) fun _ => .ofReads (.forM (Q := fun _ => True)
      (fun _ _ => looks_incoming ..) trivial)

theorem emits_condBr : Emits known none none (emitCondBr s iidx i) := by
  unfold emitCondBr
  exact .bind (looks_resolveAt _) fun _ => .bind (looks_blockAt _) fun _ =>
    .bind (looks_blockAt _) fun _ => emits_buildOnly

theorem looks_case (offset : Nat) : Looks (emitCase s i offset) fun _ => True :=
  (looks_resolveAt _).bind fun _ => (looks_blockAt _).bind fun _ => .pure fun _ _ => trivial

theorem emits_switch : Emits known none none (emitSwitch s iidx i) := by
  unfold emitSwitch
  exact .bind (looks_resolveAt _) fun _ => .bind (looks_blockAt _) fun _ =>
    .bind (looks_all fun _ => looks_case ..) fun _ => emits_buildOnly

theorem emits_call : Emits known i.dst none (emitCall s iidx i) := by
  unfold emitCall
  exact .bind (looks_fetch ..) fun _ => .bind (looks_resolveOperandFunction _) fun _ =>
    .bind (looks_all fun _ => looks_resolveAt _) fun _ => emits_buildDst

theorem emits_ret : Emits known none none (emitRet s iidx i) := by
  unfold emitRet
  split
  · exact emits_buildOnly
  · exact .bind (looks_resolveAt _) fun _ => emits_buildOnly

/-- **One instruction** writes the entry of its destination if its kind writes one, and none
otherwise. -/
theorem emits_instruction : Emits known (if writesDst i.op then i.dst else none) none
    (emitInstruction s iidx i) := by
  have hdst (h : writesDst i.op = true) : (if writesDst i.op then i.dst else none) = i.dst :=
    if_pos h
  unfold emitInstruction
  cases hop : i.op <;> simp only [hop] at hdst ⊢
  case noop | drop => exact emits_noop
  case br => exact emits_br iidx i
  case condBr => exact emits_condBr iidx i
  case switch => exact emits_switch iidx i
  case ret => exact emits_ret iidx i
  case unreachable | fence => exact emits_buildOnly
  all_goals rw [hdst rfl]
  case not => exact emits_not iidx i
  case bitReverse => exact emits_bitReverse iidx i
  case eq | ne | le | lt | ge | gt => exact emits_compare iidx i
  case typeCast => exact emits_typeCast iidx i
  case select => exact emits_select iidx i
  case move => exact emits_move i
  case alloca => exact emits_alloca iidx i
  case load | atomicLoad => exact emits_load iidx i
  case store | atomicStore | atomicRmw => exact emits_store iidx i
  case atomicCompareExchange => exact emits_compareExchange iidx i
  case getElementPtr => exact emits_getElementPtr iidx i
  case extractValue => exact emits_extractValue iidx i
  case insertValue => exact emits_insertValue iidx i
  case call => exact emits_call iidx i
  all_goals exact emits_binary iidx i

end

/-! ## Steps -/

/-- The entry the step declares. -/
def Step.declares : Step → Option Entry
  | .declareFunction f => some (.function f)
  | .declareBlock _ b => some (.block b)
  | _ => none

/-- The insertion point is not in the value maps. -/
theorem emits_setInsertBlock (block : Pointer) :
    Emits known none none (Traced.modify fun st => { st with insertBlock := block }) := by
  intro st
  refine ⟨[], [], rfl, nofun, nofun, Nat.zero_le 1, fun u st' h => ?_⟩
  cases h
  exact ⟨fun _ => rfl, nofun, rfl, rfl, rfl, rfl, rfl⟩

theorem emits_enter (bidx : BlockIdx) :
    Emits known none none (do let _ ← enterBlock s bidx) := by
  simp only [enterBlock, setInsertPoint, bind_assoc, pure_bind, bind_pure_unit]
  exact .bind (looks_fetch ..) fun _ => .bind (looks_blockValue _) fun _ =>
    emits_setInsertBlock _

theorem emits_declareBlock (bidx : BlockIdx) : Emits known none (some (.block bidx)) (addBlock bidx) := by
  intro st
  cases hb : st.blocks[bidx]? with
  | none =>
    refine ⟨[], [], ?_⟩
    simp only [addBlock, bind_def, resume, Traced.get, fetch, hb, Traced.stop, List.append_nil]
    exact .stopped
  | some old =>
    refine ⟨[], [.addBlock bidx], ?_⟩
    simp only [addBlock, bind_def, resume, Traced.get, fetch, hb, Traced.tell, Traced.modify,
      pure_run, List.nil_append, List.append_nil]
    refine .wrote trivial ?_
    exact .declared rfl rfl rfl rfl rfl rfl

theorem looks_createFunction (functionMeta : FunctionMeta) :
    Looks (createFunction s functionMeta) fun _ => True :=
  (looks_all fun _ => looks_type _).bind fun _ => (looks_type _).bind fun _ =>
    .pure fun _ _ => trivial

theorem emits_declareFunction (fidx : FunctionIdx) :
    Emits known none (some (.function fidx)) (do let _ ← declareFunction s fidx) := by
  simp only [declareFunction, bind_assoc, pure_bind, bind_pure_unit]
  refine .bind (looks_fetch ..) fun func => .bind (looks_createFunction _) fun signature =>
    .bind looks_get fun maps => .bind (looks_fetch ..) fun _ => fun st => ?_
  refine ⟨[], _, .wrote trivial ?_⟩
  exact .declared rfl rfl rfl rfl rfl rfl

theorem emits_phi (f b pidx : Nat) :
    Emits known ((Step.phi f b pidx).writes s) none (emitPhi s pidx) := by
  unfold emitPhi fetch
  cases hp : s.blockParams[pidx]? with
  | none => exact emits_stop
  | some param =>
    simp only [Step.writes, hp, Option.map_some, pure_bind]
    exact .bind (looks_type _) fun _ =>
      .bind (.tell (fun _ => trivial) (Q := fun _ => True) trivial) fun _ =>
      emits_addRegister fun _ => rfl

theorem emits_instr (f b iidx : Nat) :
    Emits known ((Step.instr f b iidx).writes s) none (emitInstr s iidx) := by
  unfold emitInstr fetch
  cases hi : s.instrs[iidx]? with
  | none => exact emits_stop
  | some i =>
    simp only [Step.writes, hi, Option.bind_some, pure_bind]
    exact emits_instruction iidx i

/-- **One step** of the walk. -/
theorem emits_step (step : Step) :
    Emits True (step.writes s) step.declares (emitStep s step) := by
  cases step with
  | declareFunction f => exact emits_declareFunction f
  | declareBlock f b => exact emits_declareBlock b
  | enterPhis f b | enterBody f b => exact emits_enter b
  | phi f b p => exact emits_phi f b p
  | instr f b i => exact emits_instr f b i

end Alcy.Codegen
