import Alcy.Codegen.Selection
import Alcy.Ir.Safe

/-! # What the emission of an instruction comes to

An instruction makes nothing, or names a value that is there, or makes one LLVM instruction of the
values of its operands (`lowers_instruction`). This is of runs that finish and look up nothing in
vain.
-/
namespace Alcy.Codegen

open Alcy.Ir Alcy.Lib Alcy.Lib.Traced Alcy.Lib.Llvm

/-- The lookup found a value. -/
def Event.isFound : Event → Bool
  | .functionValue _ v | .externalFunctionValue _ v | .registerValue _ v | .blockValue _ v
  | .immutableValue _ v => v.isSome
  | _ => true

def Event.Found (e : Event) : Prop := e.isFound = true

instance : DecidablePred Event.Found := fun e => inferInstanceAs (Decidable (e.isFound = true))

/-- The event asks for an instruction, or for an arm of a phi node. -/
def Event.isRequest : Event → Bool
  | .build .. | .addIncoming .. => true
  | _ => false

/-! ## Runs without null -/

/-- What a run from `st` returns, requests and leaves, if it finishes and finds all it looks up. -/
def Yields {α : Type} (st : LlvmIrStorage) (m : EmitM α)
    (Q : α → List Event → LlvmIrStorage → Prop) : Prop :=
  ∀ a st', (m st).result = some (a, st') → (∀ e ∈ (m st).log, e.Found) →
    Q a ((m st).log.filter Event.isRequest) st'

/-- A run that only finds something. -/
def Finds {α : Type} (st : LlvmIrStorage) (m : EmitM α) (P : α → Prop) : Prop :=
  Yields st m fun a requests st' => requests = [] ∧ st' = st ∧ P a

section
variable {α β : Type} {st : LlvmIrStorage} {P : α → Prop} {Q : β → List Event → LlvmIrStorage → Prop}

theorem Yields.mono {m : EmitM β} {Q' : β → List Event → LlvmIrStorage → Prop}
    (h : Yields st m Q) (hq : ∀ b l st', Q b l st' → Q' b l st') : Yields st m Q' :=
  fun a st' hr hf => hq _ _ _ (h a st' hr hf)

theorem Finds.bind {m : EmitM α} {k : α → EmitM β} (hm : Finds st m P)
    (hk : ∀ a, P a → Yields st (k a) Q) : Yields st (m >>= k) Q := by
  intro b st' hr hf
  rcases bind_cases (m := m) (k := k) st with ⟨_, h⟩ | ⟨a, st₁, hres, h⟩ <;> rw [h] at hr hf ⊢
  · exact nomatch hr
  · obtain ⟨hm₁, hm₂⟩ := List.forall_mem_append.1 hf
    obtain ⟨hreq, rfl, hp⟩ := hm a st₁ hres hm₁
    rw [List.filter_append, hreq, List.nil_append]
    exact hk a hp b st' hr hm₂

theorem Finds.pure {a : α} (h : P a) : Finds st (pure a) P := by
  intro a' st' hr _
  cases hr
  exact ⟨rfl, rfl, h⟩

theorem Yields.stop : Yields st Traced.stop Q := fun _ _ hr => nomatch hr

theorem Finds.mapM {κ : Type} {f : κ → EmitM α} {R : κ → α → Prop} {l : List κ}
    (h : ∀ x ∈ l, Finds st (f x) (R x)) : Finds st (l.mapM f) (List.Forall₂ R l) := by
  induction l with
  | nil =>
    rw [List.mapM_nil]
    exact .pure .nil
  | cons x l ih =>
    rw [List.mapM_cons]
    have hx := h x (List.mem_cons_self ..)
    refine hx.bind fun a ha => (ih fun y hy => h y (.tail _ hy)).bind fun as has => ?_
    exact Finds.pure (.cons ha has)

theorem finds_fetch {table : List α} {idx : Nat} :
    Finds st (fetch table idx) fun a => table[idx]? = some a := by
  unfold fetch
  split
  · next a h => exact .pure h
  · exact .stop

theorem finds_orStop {data : Option α} : Finds st (orStop data) fun a => data = some a := by
  unfold orStop
  split
  · exact .pure rfl
  · exact .stop

theorem finds_get : Finds st Traced.get fun st' => st' = st := by
  intro a st' hr _
  cases hr
  exact ⟨rfl, rfl, rfl⟩

theorem finds_type {s : Storage} {idx : TypeIdx} :
    Finds st (type s idx) fun ty => layout s idx = some ty := finds_orStop

/-- A lookup in one of the maps. -/
theorem finds_map (map : LlvmIrStorage → List Pointer) (event : Pointer → Event)
    (hreq : ∀ v, (event v).isRequest = false) (hfound : ∀ v, (event v).Found → v.isSome = true)
    (idx : Nat) :
    Finds st (do let found ← fetch (map (← Traced.get)) idx
                 Traced.tell (event found)
                 pure found)
      fun v => v.isSome = true ∧ ((map st)[idx]?).join = v := by
  refine finds_get.bind fun st' hst => finds_fetch.bind fun v hv => ?_
  subst hst
  intro v' st₁ hr hf
  have hrun : (do Traced.tell (event v); pure v : EmitM Pointer) st' =
      ⟨[event v], some (v, st')⟩ := rfl
  rw [hrun] at hr hf ⊢
  cases hr
  have h := hfound v (hf _ (List.mem_singleton_self _))
  exact ⟨by simp [hreq], rfl, h, by rw [hv]; rfl⟩

end

/-! ## Operands -/

/-- The value that the maps hold for an operand. -/
def held (st : LlvmIrStorage) (o : Operand) : Pointer :=
  match o.data with
  | .register r => (st.registers[r]?).join
  | .block b => (st.blocks[b]?).join
  | .immutable idx => (st.immutables[idx]?).join
  | .function f => (st.functions[f]?).join
  | .externalFunction e => (st.externalFunctions[e]?).join
  | .void => none

section
variable (s : Storage)

def heldAt (st : LlvmIrStorage) (i : Instruction) (k : Nat) : Pointer :=
  (s.operands[i.operands.head + k]?).bind (held st)

/-- The operand is an immediate of an integer type, with these bits. -/
def indexBits (i : Instruction) (k : Nat) (x : BitVec 32) : Prop :=
  ∃ o imm idx tag value, s.operands[i.operands.head + k]? = some o ∧ o.asImmutable = some idx ∧
    s.immutables[idx]? = some imm ∧ tagOf s imm.type = some tag ∧
    imm.asU64Integer tag = some value ∧ x = value.setWidth 32

/-- Between equal tags a cast is an alias. -/
def SameTags (i : Instruction) : Prop :=
  ∃ o dst reg tag, s.operands[i.operands.head]? = some o ∧ i.dst = some dst ∧
    s.registers[dst]? = some reg ∧ tagOf s o.type = some tag ∧ tagOf s reg.type = some tag

end

/-- The places of the operands that become operands of the LLVM instruction. -/
def builtPlaces (i : Instruction) : List Nat :=
  match i.op with
  | .unreachable | .fence => []
  | .not | .bitReverse | .typeCast | .alloca | .load | .atomicLoad | .extractValue | .br => [0]
  | .select | .atomicCompareExchange | .condBr => [0, 1, 2]
  | .getElementPtr | .call => 0 :: i.placesFrom 1
  | .switch => 0 :: 1 :: i.casePlaces.flatMap fun k => [k, k + 1]
  | .ret => if i.operands.isEmpty then [] else [0]
  | _ => [0, 1]

/-- The places of the operands that become constant indexes. -/
def indexPlaces (i : Instruction) : List Nat :=
  match i.op with
  | .extractValue => i.placesFrom 1
  | .insertValue => i.placesFrom 2
  | _ => []

/-- The maps after the entry of a destination was written. -/
def LlvmIrStorage.bind (st : LlvmIrStorage) (dst : Option RegisterIdx) (v : Value) :
    LlvmIrStorage :=
  { st with registers := dst.elim st.registers fun r => st.registers.set r (some v) }

/-- What the emission of an instruction requests and leaves. -/
inductive Lowers (s : Storage) (st : LlvmIrStorage) (iidx : InstructionIdx) (i : Instruction) :
    List Event → LlvmIrStorage → Prop
  | skip (h : i.op = .noop ∨ i.op = .drop ∨ (discardable i.op = true ∧ i.dst = none)) :
      Lowers s st iidx i [] st
  | aliased {dst : RegisterIdx} {v : Value}
      (h : i.op = .move ∨ (i.op = .typeCast ∧ SameTags s i)) (hdst : i.dst = some dst)
      (hv : heldAt s st i 0 = some v) : Lowers s st iidx i [] (st.bind (some dst) v)
  | build {vs : List Value} {indices : List (BitVec 32)} {types : List (Option LlvmType)}
      (hop : i.op ∉ [.noop, .drop, .move, .br]) (hcast : i.op = .typeCast → ¬ SameTags s i)
      (hdst : discardable i.op = true → i.dst ≠ none)
      (hvs : List.Forall₂ (fun k v => heldAt s st i k = some v) (builtPlaces i) vs)
      (hindices : List.Forall₂ (indexBits s i) (indexPlaces i) indices)
      (htypes : i.op ≠ .alloca → types = st.allocaTypes)
      (halloca : ∀ dst, i.op = .alloca → i.dst = some dst →
        ∃ ty, dstLayout s i = some ty ∧ dst < st.allocaTypes.length ∧
          types = st.allocaTypes.set dst (some ty)) :
      Lowers s st iidx i [.build iidx (vs.map some) indices]
        { st.bind (if writesDst i.op then i.dst else none) (.instr iidx) with allocaTypes := types }
  | br {target : BlockIdx} {block : Block} {b : Value} {arms : List Event}
      (hop : i.op = .br) (htarget : (s.operands[i.operands.head]?).bind Operand.asBlock = some target)
      (hblock : s.blocks[target]? = some block) (hb : heldAt s st i 0 = some b)
      (harms : List.Forall₂ (fun p arm => ∃ param phi v, s.blockParams[p]? = some param ∧
        (st.registers[param.reg]?).join = some phi ∧ heldAt s st i (1 + p) = some v ∧
        arm = .addIncoming (some phi) (some v) st.insertBlock) block.blockParams.toList arms) :
      Lowers s st iidx i (.build iidx [some b] [] :: arms) st

/-- Instructions that neither call nor leave their block. -/
theorem llvmInstr_select {s : Storage} {st : LlvmIrStorage} {iidx : InstructionIdx} {i : Instruction}
    {vs : List Value} {indices : List (BitVec 32)}
    (hop : i.op ∉ [.br, .condBr, .switch, .call, .ret, .unreachable]) :
    llvmInstr s st iidx i vs indices =
      (selectOp s st i indices).map fun op => .op (.instr iidx) op vs := by
  unfold llvmInstr
  split <;> simp_all

/-! ## Instructions -/

section
variable {s : Storage} {st : LlvmIrStorage}

theorem finds_resolveOperandValue (o : Operand) :
    Finds st (resolveOperandValue o) fun v => v.isSome = true ∧ held st o = v := by
  unfold resolveOperandValue held
  cases o.data with
  | register r =>
    exact finds_map LlvmIrStorage.registers (.registerValue r) (fun _ => rfl) (fun _ h => h) r
  | block b => exact finds_map LlvmIrStorage.blocks (.blockValue b) (fun _ => rfl) (fun _ h => h) b
  | immutable idx =>
    exact finds_map LlvmIrStorage.immutables (.immutableValue idx) (fun _ => rfl) (fun _ h => h) idx
  | function | externalFunction | void => exact Yields.stop

theorem finds_resolveOperandFunction (o : Operand) :
    Finds st (resolveOperandFunction o) fun v => v.isSome = true ∧ held st o = v := by
  unfold resolveOperandFunction held
  cases o.data with
  | function f =>
    exact finds_map LlvmIrStorage.functions (.functionValue f) (fun _ => rfl) (fun _ h => h) f
  | externalFunction e =>
    exact finds_map LlvmIrStorage.externalFunctions (.externalFunctionValue e) (fun _ => rfl)
      (fun _ h => h) e
  | register | block | immutable | void => exact Yields.stop

theorem some_of_found {v w : Pointer} (h : v.isSome = true ∧ w = v) : ∃ x, v = some x ∧ w = some x := by
  obtain ⟨hv, rfl⟩ := h
  obtain ⟨x, rfl⟩ := Option.isSome_iff_exists.1 hv
  exact ⟨x, rfl, rfl⟩

/-- The value of an operand that was read from its place. -/
theorem finds_value {i : Instruction} {k : Nat} {o : Operand}
    (ho : s.operands[i.operands.head + k]? = some o) :
    Finds st (resolveOperandValue o) fun v => ∃ x, v = some x ∧ heldAt s st i k = some x := by
  refine (finds_resolveOperandValue o).mono fun v l st' h => ⟨h.1, h.2.1, ?_⟩
  obtain ⟨x, hv, hx⟩ := some_of_found h.2.2
  exact ⟨x, hv, by rw [heldAt, ho, Option.bind_some, hx]⟩

theorem finds_resolveAt (i : Instruction) (k : Nat) :
    Finds st (resolveAt s (i.operands.head + k)) fun v => ∃ x, v = some x ∧
      heldAt s st i k = some x :=
  Finds.bind finds_fetch fun _ ho => finds_value ho

theorem data_of_asRegister {o : Operand} {r : RegisterIdx} (h : o.asRegister = some r) :
    o.data = .register r := by
  unfold Operand.asRegister at h
  split at h <;> cases h
  assumption

theorem finds_blockAt (i : Instruction) (k : Nat) :
    Finds st (blockAt s (i.operands.head + k)) fun v => ∃ x, v = some x ∧
      heldAt s st i k = some x := by
  refine Finds.bind finds_fetch fun o ho => Finds.bind finds_orStop fun b hb => ?_
  have hdata := asBlock_eq_some.1 hb
  refine (finds_map LlvmIrStorage.blocks (.blockValue b) (fun _ => rfl) (fun _ h => h) b).mono
    fun v l st' h => ⟨h.1, h.2.1, ?_⟩
  obtain ⟨x, hv, hx⟩ := some_of_found h.2.2
  exact ⟨x, hv, by rw [heldAt, ho, Option.bind_some, held, hdata]; exact hx⟩

theorem finds_aggregateIndex (i : Instruction) (k : Nat) :
    Finds st (aggregateIndex s (i.operands.head + k)) (indexBits s i k) :=
  Finds.bind finds_fetch fun o ho => Finds.bind finds_orStop fun idx hidx =>
    Finds.bind finds_fetch fun imm himm => Finds.bind finds_fetch fun node hnode =>
    Finds.bind finds_orStop fun value hvalue => Finds.pure
      ⟨o, imm, idx, node.tag, value, ho, hidx, himm, by rw [tagOf, hnode]; rfl, hvalue, rfl⟩

/-! ### What is built -/

theorem Yields.bind {α β : Type} {m : EmitM α} {k : α → EmitM β}
    {Q₁ : α → List Event → LlvmIrStorage → Prop} {Q : β → List Event → LlvmIrStorage → Prop}
    (hm : Yields st m Q₁)
    (hk : ∀ a l st₁, Q₁ a l st₁ → Yields st₁ (k a) fun b l' st₂ => Q b (l ++ l') st₂) :
    Yields st (m >>= k) Q := by
  intro b st' hr hf
  rcases bind_cases (m := m) (k := k) st with ⟨_, h⟩ | ⟨a, st₁, hres, h⟩ <;> rw [h] at hr hf ⊢
  · exact nomatch hr
  · obtain ⟨hm₁, hm₂⟩ := List.forall_mem_append.1 hf
    rw [List.filter_append]
    exact hk a _ st₁ (hm a st₁ hres hm₁) b st' hr hm₂

theorem yields_build (iidx : InstructionIdx) (ops : List Pointer) (indices : List (BitVec 32)) :
    Yields st (build iidx ops indices) fun v l st' =>
      v = some (.instr iidx) ∧ l = [.build iidx ops indices] ∧ st' = st := by
  intro v st' hr _
  cases hr
  exact ⟨rfl, rfl, rfl⟩

theorem yields_addRegister (r : RegisterIdx) (v : Value) :
    Yields st (addRegister r (some v)) fun _ l st' => l = [] ∧ st' = st.bind (some r) v := by
  refine Finds.bind finds_get fun maps hmaps => Finds.bind finds_fetch fun old _ => ?_
  intro u st' hr _
  cases hr
  exact ⟨rfl, rfl⟩

theorem yields_addDst (dst : Option RegisterIdx) (v : Value) :
    Yields st (addDst dst (some v)) fun _ l st' => l = [] ∧ st' = st.bind dst v := by
  cases dst with
  | none =>
    intro u st' hr _
    cases hr
    exact ⟨rfl, rfl⟩
  | some r => exact yields_addRegister r v

theorem yields_buildDst (iidx : InstructionIdx) (ops : List Pointer)
    (indices : List (BitVec 32)) (dst : Option RegisterIdx) :
    Yields st (do addDst dst (← build iidx ops indices)) fun _ l st' =>
      l = [.build iidx ops indices] ∧ st' = st.bind dst (.instr iidx) := by
  refine (yields_build iidx ops indices).bind ?_
  rintro _ _ _ ⟨rfl, rfl, rfl⟩
  refine (yields_addDst dst _).mono ?_
  rintro _ _ _ ⟨rfl, rfl⟩
  exact ⟨rfl, rfl⟩

theorem yields_buildOnly (iidx : InstructionIdx) (ops : List Pointer) :
    Yields st (do let _ ← build iidx ops []) fun _ l st' =>
      l = [.build iidx ops []] ∧ st' = st := by
  refine (yields_build iidx ops []).bind ?_
  rintro _ _ _ ⟨rfl, rfl, rfl⟩
  intro u st' hr _
  cases hr
  exact ⟨rfl, rfl⟩

/-- The instruction becomes one LLVM instruction of the operands at the places. -/
structure Plain (i : Instruction) (places : List Nat) : Prop where
  op : i.op ∉ [.noop, .drop, .move, .br]
  notAlloca : i.op ≠ .alloca
  places : builtPlaces i = places
  noIndices : indexPlaces i = []

variable {iidx : InstructionIdx} {i : Instruction} {l : List Event} {st' : LlvmIrStorage}

theorem Lowers.plain {places : List Nat} {vs : List Value} {ops : List Pointer}
    (hp : Plain i places) (hcast : i.op = .typeCast → ¬ SameTags s i)
    (hdst : discardable i.op = true → i.dst ≠ none)
    (hvs : List.Forall₂ (fun k v => heldAt s st i k = some v) places vs) (hops : ops = vs.map some)
    (hl : l = [.build iidx ops []])
    (hst : st' = st.bind (if writesDst i.op then i.dst else none) (.instr iidx)) :
    Lowers s st iidx i l st' := by
  subst hl hst hops
  exact .build hp.op hcast hdst (hp.places ▸ hvs) (hp.noIndices ▸ .nil) (fun _ => rfl)
    fun _ h => absurd h hp.notAlloca

theorem yields_skip (h : discardable i.op = true) (hdst : i.dst = none) :
    Yields st (pure ()) fun _ => Lowers s st iidx i := by
  intro u st' hr _
  cases hr
  exact .skip (.inr (.inr ⟨h, hdst⟩))

/-- The end of an instruction that has a destination. -/
theorem yields_result {places : List Nat} {vs : List Value} {ops : List Pointer}
    {dst : RegisterIdx} (hp : Plain i places) (hcast : i.op = .typeCast → ¬ SameTags s i)
    (hdst : i.dst = some dst) (hw : writesDst i.op = true)
    (hvs : List.Forall₂ (fun k v => heldAt s st i k = some v) places vs)
    (hops : ops = vs.map some) :
    Yields st (do addRegister dst (← build iidx ops [])) fun _ => Lowers s st iidx i := by
  refine (yields_buildDst iidx ops [] (some dst)).mono ?_
  rintro _ _ _ ⟨hl, hst⟩
  refine .plain hp hcast (fun _ => by simp [hdst]) hvs hops hl ?_
  rw [hst, if_pos hw, hdst]

theorem yields_binary (hp : Plain i [0, 1]) (hd : discardable i.op = true)
    (hw : writesDst i.op = true) (hcast : i.op ≠ .typeCast) :
    Yields st (emitBinary s iidx i) fun _ => Lowers s st iidx i := by
  unfold emitBinary
  refine Finds.bind finds_fetch fun lhs hlhs => Finds.bind finds_fetch fun rhs hrhs => ?_
  cases hdst : i.dst with
  | none => exact yields_skip hd hdst
  | some dst =>
    refine Finds.bind (finds_value (k := 0) hlhs) fun _ ⟨x, hx, hvx⟩ =>
      Finds.bind (finds_value hrhs) fun _ ⟨y, hy, hvy⟩ => ?_
    exact yields_result hp (absurd · hcast) hdst hw (.cons hvx (.cons hvy .nil)) (by rw [hx, hy]; rfl)

theorem yields_not (hp : Plain i [0]) (hd : discardable i.op = true)
    (hw : writesDst i.op = true) (hcast : i.op ≠ .typeCast) :
    Yields st (emitNot s iidx i) fun _ => Lowers s st iidx i := by
  unfold emitNot
  refine Finds.bind finds_fetch fun lhs hlhs => ?_
  cases hdst : i.dst with
  | none => exact yields_skip hd hdst
  | some dst =>
    refine Finds.bind (finds_value (k := 0) hlhs) fun _ ⟨x, hx, hvx⟩ => ?_
    exact yields_result hp (absurd · hcast) hdst hw (.cons hvx .nil) (by rw [hx]; rfl)

theorem yields_bitReverse (hp : Plain i [0]) (hd : discardable i.op = true)
    (hw : writesDst i.op = true) (hcast : i.op ≠ .typeCast) :
    Yields st (emitBitReverse s iidx i) fun _ => Lowers s st iidx i := by
  unfold emitBitReverse
  refine Finds.bind (finds_resolveAt i 0) fun _ ⟨x, hx, hvx⟩ => ?_
  cases hdst : i.dst with
  | none => exact yields_skip hd hdst
  | some dst => exact yields_result hp (absurd · hcast) hdst hw (.cons hvx .nil) (by rw [hx]; rfl)

/-- The end of an instruction that is built with or without a destination. -/
theorem yields_buildAlways {p : List Nat} {vs : List Value} {ops : List Pointer}
    (hp : Plain i p) (hcast : i.op ≠ .typeCast) (hd : discardable i.op = false)
    (hw : writesDst i.op = true)
    (hvs : List.Forall₂ (fun k v => heldAt s st i k = some v) p vs)
    (hops : ops = vs.map some) :
    Yields st (do addDst i.dst (← build iidx ops [])) fun _ => Lowers s st iidx i := by
  refine (yields_buildDst iidx ops [] i.dst).mono ?_
  rintro _ _ _ ⟨hl, hst⟩
  refine .plain hp (absurd · hcast) (fun h => absurd h (by simp [hd])) hvs hops hl ?_
  rw [hst, if_pos hw]

theorem yields_compare (hp : Plain i [0, 1]) (hcast : i.op ≠ .typeCast)
    (hd : discardable i.op = false) (hw : writesDst i.op = true) :
    Yields st (emitCompare s iidx i) fun _ => Lowers s st iidx i := by
  unfold emitCompare
  refine Finds.bind finds_fetch fun lhs hlhs => Finds.bind finds_fetch fun rhs hrhs =>
    Finds.bind finds_fetch fun node _ => Finds.bind (finds_value (k := 0) hlhs)
    fun _ ⟨x, hx, hvx⟩ => Finds.bind (finds_value hrhs) fun _ ⟨y, hy, hvy⟩ =>
    Finds.bind finds_orStop fun _ _ => ?_
  exact yields_buildAlways hp hcast hd hw (.cons hvx (.cons hvy .nil)) (by rw [hx, hy]; rfl)

theorem yields_store (hp : Plain i [0, 1]) (hcast : i.op ≠ .typeCast)
    (hd : discardable i.op = false) (hw : writesDst i.op = true) :
    Yields st (emitStore s iidx i) fun _ => Lowers s st iidx i := by
  unfold emitStore
  refine Finds.bind finds_fetch fun lhs hlhs => Finds.bind finds_fetch fun rhs hrhs =>
    Finds.bind (finds_value (k := 0) hlhs) fun _ ⟨x, hx, hvx⟩ =>
    Finds.bind (finds_value hrhs) fun _ ⟨y, hy, hvy⟩ => ?_
  exact yields_buildAlways hp hcast hd hw (.cons hvx (.cons hvy .nil)) (by rw [hx, hy]; rfl)

theorem yields_compareExchange (hp : Plain i [0, 1, 2]) (hcast : i.op ≠ .typeCast)
    (hd : discardable i.op = false) (hw : writesDst i.op = true) :
    Yields st (emitCompareExchange s iidx i) fun _ => Lowers s st iidx i := by
  unfold emitCompareExchange
  refine Finds.bind (finds_resolveAt i 0) fun _ ⟨x, hx, hvx⟩ =>
    Finds.bind (finds_resolveAt i 1) fun _ ⟨y, hy, hvy⟩ =>
    Finds.bind (finds_resolveAt i 2) fun _ ⟨z, hz, hvz⟩ => ?_
  exact yields_buildAlways hp hcast hd hw (.cons hvx (.cons hvy (.cons hvz .nil)))
    (by rw [hx, hy, hz]; rfl)

theorem yields_select (hp : Plain i [0, 1, 2]) (hd : discardable i.op = true)
    (hw : writesDst i.op = true) (hcast : i.op ≠ .typeCast) :
    Yields st (emitSelect s iidx i) fun _ => Lowers s st iidx i := by
  unfold emitSelect
  refine Finds.bind (finds_resolveAt i 0) fun _ ⟨x, hx, hvx⟩ =>
    Finds.bind (finds_resolveAt i 1) fun _ ⟨y, hy, hvy⟩ =>
    Finds.bind (finds_resolveAt i 2) fun _ ⟨z, hz, hvz⟩ => ?_
  cases hdst : i.dst with
  | none => exact yields_skip hd hdst
  | some dst =>
    exact yields_result hp (absurd · hcast) hdst hw (.cons hvx (.cons hvy (.cons hvz .nil)))
      (by rw [hx, hy, hz]; rfl)

/-- The end of an alias. -/
theorem yields_alias {dst : RegisterIdx} {v : Pointer} {x : Value}
    (h : i.op = .move ∨ (i.op = .typeCast ∧ SameTags s i)) (hdst : i.dst = some dst)
    (hx : v = some x) (hv : heldAt s st i 0 = some x) :
    Yields st (addRegister dst v) fun _ => Lowers s st iidx i := by
  subst hx
  refine (yields_addRegister dst x).mono ?_
  rintro _ _ _ ⟨rfl, rfl⟩
  exact .aliased h hdst hv

theorem yields_move (hop : i.op = .move) :
    Yields st (emitMove s i) fun _ => Lowers s st iidx i := by
  unfold emitMove
  cases hdst : i.dst with
  | none => exact yields_skip (by rw [hop]; rfl) hdst
  | some dst =>
    exact Finds.bind (finds_resolveAt i 0) fun _ ⟨x, hx, hvx⟩ => yields_alias (.inl hop) hdst hx hvx

theorem yields_typeCast (hop : i.op = .typeCast) (hp : Plain i [0]) :
    Yields st (emitTypeCast s iidx i) fun _ => Lowers s st iidx i := by
  unfold emitTypeCast
  cases hdst : i.dst with
  | none => exact yields_skip (by rw [hop]; rfl) hdst
  | some dst =>
    refine Finds.bind finds_fetch fun src hsrc => Finds.bind finds_fetch fun srcNode hsrcNode =>
      Finds.bind finds_fetch fun dstReg hreg => Finds.bind finds_fetch fun dstNode hdstNode =>
      Finds.bind (finds_value (k := 0) hsrc) fun _ ⟨x, hx, hvx⟩ =>
      Finds.bind finds_type fun _ _ => ?_
    have hsrcTag : tagOf s src.type = some srcNode.tag := by rw [tagOf, hsrcNode]; rfl
    have hdstTag : tagOf s dstReg.type = some dstNode.tag := by rw [tagOf, hdstNode]; rfl
    dsimp only
    by_cases htag : srcNode.tag = dstNode.tag
    · simp only [if_pos htag, pure_bind]
      exact yields_alias (.inr ⟨hop, src, dst, dstReg, srcNode.tag, hsrc, hdst, hreg, hsrcTag,
        htag ▸ hdstTag⟩) hdst hx hvx
    · simp only [if_neg htag]
      have hdiff : ¬ SameTags s i := by
        rintro ⟨o, dst', reg, tag, ho, hdst', hreg', ht, ht'⟩
        cases hsrc.symm.trans ho
        cases hdst.symm.trans hdst'
        cases hreg.symm.trans hreg'
        exact htag (Option.some.inj (hsrcTag.symm.trans (ht.trans (ht'.symm.trans hdstTag))))
      by_cases hcast : castable srcNode.tag dstNode.tag = true
      · simp only [if_pos hcast]
        exact yields_result hp (fun _ => hdiff) hdst (by rw [hop]; rfl) (.cons hvx .nil)
          (by rw [hx]; rfl)
      · simp only [if_neg hcast, Traced.stop_bind]
        exact .stop

theorem yields_load (hp : Plain i [0]) (hd : discardable i.op = true)
    (hw : writesDst i.op = true) (hcast : i.op ≠ .typeCast) :
    Yields st (emitLoad s iidx i) fun _ => Lowers s st iidx i := by
  unfold emitLoad
  cases hdst : i.dst with
  | none => exact yields_skip hd hdst
  | some dst =>
    refine Finds.bind finds_fetch fun ptr hptr => Finds.bind finds_fetch fun _ _ =>
      Finds.bind finds_type fun _ _ => Finds.bind (finds_value (k := 0) hptr) fun _ ⟨x, hx, hvx⟩ => ?_
    exact yields_result hp (absurd · hcast) hdst hw (.cons hvx .nil) (by rw [hx]; rfl)

theorem yields_alloca (hop : i.op = .alloca) :
    Yields st (emitAlloca s iidx i) fun _ => Lowers s st iidx i := by
  unfold emitAlloca
  cases hdst : i.dst with
  | none => exact yields_skip (by rw [hop]; rfl) hdst
  | some dst =>
    refine Finds.bind finds_fetch fun size hsize => Finds.bind finds_fetch fun reg hreg =>
      Finds.bind finds_type fun ty hty => Finds.bind (finds_value (k := 0) hsize)
      fun _ ⟨x, hx, hvx⟩ => ?_
    subst hx
    refine (yields_build iidx [some x] []).bind ?_
    rintro _ _ st₁ ⟨rfl, rfl, hst⟩
    obtain rfl := hst.symm
    refine (yields_addRegister dst _).bind ?_
    rintro _ _ _ ⟨rfl, rfl⟩
    refine Finds.bind finds_get fun maps hmaps => Finds.bind finds_fetch fun old hold => ?_
    intro u st' hr _
    cases hr
    subst hmaps
    have hlt : dst < st.allocaTypes.length := (List.getElem?_eq_some_iff.1 hold).1
    have hlayout : dstLayout s i = some ty := by
      rw [dstLayout, hdst, Option.bind_eq_bind, Option.bind_some, hreg]
      exact hty
    have h := @Lowers.build s st iidx i [x] [] (st.allocaTypes.set dst (some ty)) (by simp [hop])
      (by simp [hop])
      (fun _ => by simp [hdst]) (by rw [builtPlaces, hop]; exact .cons hvx .nil)
      (by rw [indexPlaces, hop]; exact .nil) (absurd hop) fun d _ hd => by
        cases hdst.symm.trans hd
        exact ⟨ty, hlayout, hlt, rfl⟩
    rw [if_pos (by rw [hop]; rfl), hdst] at h
    exact h

/-! ### Runs of operands -/

/-- Values found one by one. -/
theorem exists_values {α : Type} {P : α → Value → Prop} {ks : List α} {ps : List Pointer}
    (h : List.Forall₂ (fun k v => ∃ x, v = some x ∧ P k x) ks ps) :
    ∃ xs : List Value, ps = xs.map some ∧ List.Forall₂ P ks xs := by
  induction h with
  | nil => exact ⟨[], rfl, .nil⟩
  | cons h _ ih =>
    obtain ⟨x, rfl, hx⟩ := h
    obtain ⟨xs, rfl, hxs⟩ := ih
    exact ⟨x :: xs, rfl, .cons hx hxs⟩

theorem finds_resolveAll (ks : List Nat) :
    Finds st (ks.mapM fun k => resolveAt s (i.operands.head + k)) fun ps =>
      ∃ xs : List Value, ps = xs.map some ∧ List.Forall₂ (fun k v => heldAt s st i k = some v) ks xs :=
  (Finds.mapM fun k _ => finds_resolveAt i k).mono fun _ _ _ h => ⟨h.1, h.2.1, exists_values h.2.2⟩

theorem finds_allocaType (r : RegisterIdx) : Finds st (allocaType r) fun _ => True :=
  Finds.bind finds_get fun _ _ => finds_fetch.mono fun _ _ _ h => ⟨h.1, h.2.1, trivial⟩

theorem yields_getElementPtr (hp : Plain i (0 :: i.placesFrom 1)) (hcast : i.op ≠ .typeCast)
    (hd : discardable i.op = false) (hw : writesDst i.op = true) :
    Yields st (emitGetElementPtr s iidx i) fun _ => Lowers s st iidx i := by
  unfold emitGetElementPtr
  refine Finds.bind finds_fetch fun base hbase => Finds.bind finds_orStop fun _ _ =>
    Finds.bind (finds_allocaType _) fun _ _ => Finds.bind (finds_resolveAll _)
    fun _ ⟨xs, hxs, hvs⟩ => Finds.bind (finds_value (k := 0) hbase) fun _ ⟨x, hx, hvx⟩ => ?_
  exact yields_buildAlways hp hcast hd hw (.cons hvx hvs) (by rw [hx, hxs]; rfl)

theorem yields_aggregate {places : List Nat} {vs : List Value} {ops : List Pointer}
    {indices : List (BitVec 32)} {dst : RegisterIdx} (hop : i.op ∉ [.noop, .drop, .move, .br])
    (hna : i.op ≠ .alloca) (hplaces : builtPlaces i = places) (hcast : i.op ≠ .typeCast)
    (hdst : i.dst = some dst) (hw : writesDst i.op = true)
    (hvs : List.Forall₂ (fun k v => heldAt s st i k = some v) places vs) (hops : ops = vs.map some)
    (hindices : List.Forall₂ (indexBits s i) (indexPlaces i) indices) :
    Yields st (do addRegister dst (← build iidx ops indices)) fun _ => Lowers s st iidx i := by
  refine (yields_buildDst iidx ops indices (some dst)).mono ?_
  rintro _ _ _ ⟨rfl, rfl⟩
  subst hops
  have h := @Lowers.build s st iidx i vs indices _ hop (absurd · hcast) (fun _ => by simp [hdst])
    (hplaces ▸ hvs) hindices (fun _ => rfl) fun _ h => absurd h hna
  rw [if_pos hw, hdst] at h
  exact h

theorem yields_extractValue (hop : i.op = .extractValue) :
    Yields st (emitExtractValue s iidx i) fun _ => Lowers s st iidx i := by
  unfold emitExtractValue
  refine Finds.bind (finds_resolveAt i 0) fun _ ⟨x, hx, hvx⟩ =>
    Finds.bind (Finds.mapM fun k _ => finds_aggregateIndex i k) fun indices hindices => ?_
  cases hdst : i.dst with
  | none => exact yields_skip (by rw [hop]; rfl) hdst
  | some dst =>
    exact yields_aggregate (by simp [hop]) (by simp [hop]) (by rw [builtPlaces, hop]) (by simp [hop])
      hdst (by rw [hop]; rfl) (.cons hvx .nil) (by rw [hx]; rfl)
      (by rw [indexPlaces, hop]; exact hindices)

theorem yields_insertValue (hop : i.op = .insertValue) :
    Yields st (emitInsertValue s iidx i) fun _ => Lowers s st iidx i := by
  unfold emitInsertValue
  refine Finds.bind (finds_resolveAt i 0) fun _ ⟨x, hx, hvx⟩ =>
    Finds.bind (finds_resolveAt i 1) fun _ ⟨y, hy, hvy⟩ =>
    Finds.bind (Finds.mapM fun k _ => finds_aggregateIndex i k) fun indices hindices => ?_
  cases hdst : i.dst with
  | none => exact yields_skip (by rw [hop]; rfl) hdst
  | some dst =>
    exact yields_aggregate (by simp [hop]) (by simp [hop]) (by rw [builtPlaces, hop]) (by simp [hop])
      hdst (by rw [hop]; rfl) (.cons hvx (.cons hvy .nil)) (by rw [hx, hy]; rfl)
      (by rw [indexPlaces, hop]; exact hindices)

/-! ### Control -/

/-- The end of an instruction that yields no value. -/
theorem yields_control {p : List Nat} {vs : List Value} {ops : List Pointer}
    (hp : Plain i p) (hcast : i.op ≠ .typeCast) (hd : discardable i.op = false)
    (hw : writesDst i.op = false)
    (hvs : List.Forall₂ (fun k v => heldAt s st i k = some v) p vs)
    (hops : ops = vs.map some) :
    Yields st (do let _ ← build iidx ops []) fun _ => Lowers s st iidx i := by
  refine (yields_buildOnly iidx ops).mono ?_
  rintro _ _ _ ⟨hl, rfl⟩
  refine .plain hp (absurd · hcast) (fun h => absurd h (by simp [hd])) hvs hops hl ?_
  rw [if_neg (by simp [hw])]
  rfl

theorem yields_condBr (hop : i.op = .condBr) :
    Yields st (emitCondBr s iidx i) fun _ => Lowers s st iidx i := by
  unfold emitCondBr
  refine Finds.bind (finds_resolveAt i 0) fun _ ⟨x, hx, hvx⟩ =>
    Finds.bind (finds_blockAt i 1) fun _ ⟨y, hy, hvy⟩ =>
    Finds.bind (finds_blockAt i 2) fun _ ⟨z, hz, hvz⟩ => ?_
  exact yields_control (p := [0, 1, 2])
    ⟨by simp [hop], by simp [hop], by rw [builtPlaces, hop], by rw [indexPlaces, hop]⟩
    (by simp [hop]) (by rw [hop]; rfl) (by rw [hop]; rfl)
    (.cons hvx (.cons hvy (.cons hvz .nil))) (by rw [hx, hy, hz]; rfl)

theorem finds_case (k : Nat) : Finds st (emitCase s i k) fun ps => ∃ xs : List Value,
    ps = xs.map some ∧ List.Forall₂ (fun k v => heldAt s st i k = some v) [k, k + 1] xs :=
  Finds.bind (finds_resolveAt i k) fun _ ⟨x, hx, hvx⟩ =>
    Finds.bind (finds_blockAt i (k + 1)) fun _ ⟨y, hy, hvy⟩ =>
      Finds.pure ⟨[x, y], by rw [hx, hy]; rfl, .cons hvx (.cons hvy .nil)⟩

/-- The cases one after the other. -/
theorem exists_cases {ks : List Nat} {pss : List (List Pointer)}
    (h : List.Forall₂ (fun k ps => ∃ xs : List Value, ps = xs.map some ∧
      List.Forall₂ (fun k v => heldAt s st i k = some v) [k, k + 1] xs) ks pss) :
    ∃ xs : List Value, pss.flatten = xs.map some ∧
      List.Forall₂ (fun k v => heldAt s st i k = some v) (ks.flatMap fun k => [k, k + 1]) xs := by
  induction h with
  | nil => exact ⟨[], rfl, .nil⟩
  | cons h _ ih =>
    obtain ⟨xs, rfl, hxs⟩ := h
    obtain ⟨ys, hys, hvs⟩ := ih
    exact ⟨xs ++ ys, by rw [List.flatten_cons, hys, List.map_append], List.rel_append hxs hvs⟩

theorem yields_switch (hop : i.op = .switch) :
    Yields st (emitSwitch s iidx i) fun _ => Lowers s st iidx i := by
  unfold emitSwitch
  refine Finds.bind (finds_resolveAt i 0) fun _ ⟨x, hx, hvx⟩ =>
    Finds.bind (finds_blockAt i 1) fun _ ⟨y, hy, hvy⟩ =>
    Finds.bind (Finds.mapM fun k _ => finds_case k) fun pss hpss => ?_
  obtain ⟨xs, hxs, hvs⟩ := exists_cases hpss
  exact yields_control (p := 0 :: 1 :: i.casePlaces.flatMap fun k => [k, k + 1])
    ⟨by simp [hop], by simp [hop], by rw [builtPlaces, hop], by rw [indexPlaces, hop]⟩
    (by simp [hop]) (by rw [hop]; rfl) (by rw [hop]; rfl)
    (.cons hvx (.cons hvy hvs)) (by rw [hx, hy, hxs]; rfl)

theorem yields_call (hop : i.op = .call) :
    Yields st (emitCall s iidx i) fun _ => Lowers s st iidx i := by
  unfold emitCall
  refine Finds.bind finds_fetch fun callee hcallee =>
    Finds.bind (finds_resolveOperandFunction callee) fun f hf =>
    Finds.bind (finds_resolveAll _) fun _ ⟨xs, hxs, hvs⟩ => ?_
  obtain ⟨x, hx, hvx⟩ := some_of_found hf
  have hheld : heldAt s st i 0 = some x := by rw [heldAt, Nat.add_zero, hcallee]; exact hvx
  exact yields_buildAlways (p := 0 :: i.placesFrom 1)
    ⟨by simp [hop], by simp [hop], by rw [builtPlaces, hop], by rw [indexPlaces, hop]⟩
    (by simp [hop]) (by rw [hop]; rfl) (by rw [hop]; rfl) (.cons hheld hvs) (by rw [hx, hxs]; rfl)

theorem yields_ret (hop : i.op = .ret) :
    Yields st (emitRet s iidx i) fun _ => Lowers s st iidx i := by
  unfold emitRet
  split
  · next h =>
    exact yields_control (p := [])
      ⟨by simp [hop], by simp [hop], by rw [builtPlaces, hop]; exact if_pos h,
        by rw [indexPlaces, hop]⟩
      (by simp [hop]) (by rw [hop]; rfl) (by rw [hop]; rfl) .nil rfl
  · next h =>
    refine Finds.bind (finds_resolveAt i 0) fun _ ⟨x, hx, hvx⟩ => ?_
    exact yields_control (p := [0])
      ⟨by simp [hop], by simp [hop], by rw [builtPlaces, hop]; exact if_neg h,
        by rw [indexPlaces, hop]⟩
      (by simp [hop]) (by rw [hop]; rfl) (by rw [hop]; rfl) (.cons hvx .nil) (by rw [hx]; rfl)

/-- A loop that requests one thing for each element. -/
theorem yields_forM {κ : Type} {f : κ → EmitM Unit} {R : κ → Event → Prop} {ks : List κ}
    (h : ∀ k ∈ ks, Yields st (f k) fun _ l st' => st' = st ∧ ∃ e, l = [e] ∧ R k e) :
    Yields st (ks.forM f) fun _ l st' => st' = st ∧ List.Forall₂ R ks l := by
  induction ks with
  | nil =>
    intro u st' hr _
    cases hr
    exact ⟨rfl, .nil⟩
  | cons k ks ih =>
    refine Yields.bind (h k (List.mem_cons_self ..)) ?_
    rintro _ _ _ ⟨rfl, e, rfl, he⟩
    refine (ih fun x hx => h x (.tail _ hx)).mono ?_
    rintro _ _ _ ⟨rfl, hl⟩
    exact ⟨rfl, .cons he hl⟩

theorem yields_br (hop : i.op = .br) :
    Yields st (emitBr s iidx i) fun _ => Lowers s st iidx i := by
  unfold emitBr
  refine Finds.bind finds_fetch fun o ho => Finds.bind finds_orStop fun target htarget => ?_
  refine Finds.bind (finds_map LlvmIrStorage.blocks (.blockValue target) (fun _ => rfl)
    (fun _ h => h) target) fun _ hfound => Finds.bind finds_get fun maps hmaps => ?_
  obtain ⟨b, rfl, hb⟩ := some_of_found hfound
  subst hmaps
  refine (yields_build iidx [some b] []).bind ?_
  rintro _ _ st₁ ⟨-, rfl, hst⟩
  obtain rfl := hst.symm
  refine Finds.bind finds_fetch fun block hblock => ?_
  refine (yields_forM (R := fun p arm => ∃ param phi v, s.blockParams[p]? = some param ∧
    (maps.registers[param.reg]?).join = some phi ∧ heldAt s maps i (1 + p) = some v ∧
    arm = .addIncoming (some phi) (some v) maps.insertBlock) fun p _ => ?_).mono ?_
  · refine Finds.bind finds_fetch fun param hparam =>
      Finds.bind (finds_map LlvmIrStorage.registers (.registerValue param.reg) (fun _ => rfl)
        (fun _ h => h) param.reg) fun _ hfound => ?_
    rw [Nat.add_assoc]
    refine Finds.bind (finds_resolveAt i (1 + p)) fun _ ⟨v, hv, hheld⟩ => ?_
    obtain ⟨phi, rfl, hphi⟩ := some_of_found hfound
    intro u st' hr _
    cases hr
    exact ⟨rfl, _, rfl, param, phi, v, hparam, hphi, hheld, by rw [hv]⟩
  · rintro _ arms _ ⟨rfl, harms⟩
    have hdata := asBlock_eq_some.1 htarget
    refine .br hop (by rw [ho]; exact htarget) hblock ?_ harms
    rw [heldAt, Nat.add_zero, ho, Option.bind_some, held, hdata]
    exact hb

/-- **One instruction**, as the emission leaves it. -/
theorem lowers_instruction (s : Storage) (st : LlvmIrStorage) (iidx : InstructionIdx)
    (i : Instruction) : Yields st (emitInstruction s iidx i) fun _ => Lowers s st iidx i := by
  have hskip (h : i.op = .noop ∨ i.op = .drop) :
      Yields st (pure ()) fun _ => Lowers s st iidx i := by
    intro u st' hr _
    cases hr
    exact .skip (h.imp id .inl)
  have hplain (places : List Nat) (h : builtPlaces i = places)
      (hop : i.op ∉ [.noop, .drop, .move, .br, .alloca, .extractValue, .insertValue]) :
      Plain i places := by
    simp only [List.mem_cons, List.not_mem_nil, or_false, not_or] at hop
    refine ⟨by simp [hop], hop.2.2.2.2.1, h, ?_⟩
    unfold indexPlaces
    split <;> simp_all
  unfold emitInstruction
  cases hop : i.op
  case noop => exact hskip (.inl hop)
  case drop => exact hskip (.inr hop)
  case move => exact yields_move hop
  case alloca => exact yields_alloca hop
  case extractValue => exact yields_extractValue hop
  case insertValue => exact yields_insertValue hop
  case br => exact yields_br hop
  case condBr => exact yields_condBr hop
  case switch => exact yields_switch hop
  case call => exact yields_call hop
  case ret => exact yields_ret hop
  case typeCast => exact yields_typeCast hop (hplain _ (by rw [builtPlaces, hop]) (by simp [hop]))
  case unreachable | fence =>
    refine yields_control (p := []) (hplain _ (by rw [builtPlaces, hop])
      (by simp [hop])) (by simp [hop]) (by rw [hop]; rfl) (by rw [hop]; rfl) .nil rfl
  case not =>
    exact yields_not (hplain _ (by rw [builtPlaces, hop]) (by simp [hop])) (by rw [hop]; rfl)
      (by rw [hop]; rfl) (by simp [hop])
  case bitReverse =>
    exact yields_bitReverse (hplain _ (by rw [builtPlaces, hop]) (by simp [hop])) (by rw [hop]; rfl)
      (by rw [hop]; rfl) (by simp [hop])
  case eq | ne | le | lt | ge | gt =>
    exact yields_compare (hplain _ (by rw [builtPlaces, hop]) (by simp [hop])) (by simp [hop])
      (by rw [hop]; rfl) (by rw [hop]; rfl)
  case store | atomicStore | atomicRmw =>
    exact yields_store (hplain _ (by rw [builtPlaces, hop]) (by simp [hop])) (by simp [hop])
      (by rw [hop]; rfl) (by rw [hop]; rfl)
  case atomicCompareExchange =>
    exact yields_compareExchange (hplain _ (by rw [builtPlaces, hop]) (by simp [hop]))
      (by simp [hop]) (by rw [hop]; rfl) (by rw [hop]; rfl)
  case select =>
    exact yields_select (hplain _ (by rw [builtPlaces, hop]) (by simp [hop])) (by rw [hop]; rfl)
      (by rw [hop]; rfl) (by simp [hop])
  case load | atomicLoad =>
    exact yields_load (hplain _ (by rw [builtPlaces, hop]) (by simp [hop])) (by rw [hop]; rfl)
      (by rw [hop]; rfl) (by simp [hop])
  case getElementPtr =>
    exact yields_getElementPtr (hplain _ (by rw [builtPlaces, hop]) (by simp [hop]))
      (by simp [hop]) (by rw [hop]; rfl) (by rw [hop]; rfl)
  all_goals
    exact yields_binary (hplain _ (by rw [builtPlaces, hop]) (by simp [hop])) (by rw [hop]; rfl)
      (by rw [hop]; rfl) (by simp [hop])

end

end Alcy.Codegen
