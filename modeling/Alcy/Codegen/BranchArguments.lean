import Alcy.Codegen.Emitter
import Alcy.Ir.Verifier

/-! # The arguments of a branch

Operand `1 + i` of a `Br` is for the `i`-th parameter of its target. The emitter counts the
parameters by their place in the table of all parameters instead, so a target whose parameters do
not begin that table gets operands from behind the branch.
-/
namespace Alcy.Codegen

open Alcy.Ir Alcy.Lib

/-- The value that an operand names in the maps. -/
def operandValue (st : LlvmIrStorage) (op : Operand) : Option Pointer :=
  match op.data with
  | .register idx => st.registers[idx]?
  | .block idx => st.blocks[idx]?
  | .immutable idx => st.immutables[idx]?
  | _ => none

/-- What phi nodes were given: the phi node, the value and the block it comes from. -/
def received (log : List Event) : List (Pointer × Pointer × Pointer) :=
  log.filterMap fun
    | .addIncoming phi value block => some (phi, value, block)
    | _ => none

@[simp] theorem received_append (log log' : List Event) :
    received (log ++ log') = received log ++ received log' := by
  simp [received]

/-- A run that leaves the maps as they are and gives phi nodes just these values. -/
def Gives {α : Type} (m : EmitM α) (st : LlvmIrStorage) (a : α)
    (given : List (Pointer × Pointer × Pointer)) : Prop :=
  ∃ log, m st = ⟨log, some (a, st)⟩ ∧ received log = given

theorem Gives.result {α : Type} {m : EmitM α} {st : LlvmIrStorage} {a : α}
    {given : List (Pointer × Pointer × Pointer)} (h : Gives m st a given) :
    (m st).result = some (a, st) := by
  obtain ⟨log, hm, _⟩ := h
  rw [hm]

theorem Gives.received {α : Type} {m : EmitM α} {st : LlvmIrStorage} {a : α}
    {given : List (Pointer × Pointer × Pointer)} (h : Gives m st a given) :
    Codegen.received (m st).log = given := by
  obtain ⟨log, hm, hlog⟩ := h
  rw [hm]
  exact hlog

theorem Gives.bind {α β : Type} {m : EmitM α} {k : α → EmitM β} {st : LlvmIrStorage} {a : α}
    {b : β} {given given' : List (Pointer × Pointer × Pointer)} (hm : Gives m st a given)
    (hk : Gives (k a) st b given') : Gives (m >>= k) st b (given ++ given') := by
  obtain ⟨log, hm, hlog⟩ := hm
  obtain ⟨log', hk, hlog'⟩ := hk
  refine ⟨log ++ log', ?_, by rw [received_append, hlog, hlog']⟩
  rw [Traced.bind_def, hm]
  show Traced.resume k log (some (a, st)) = _
  simp only [Traced.resume, hk]

theorem Gives.forM {κ : Type} {f : κ → EmitM Unit} {st : LlvmIrStorage}
    {given : κ → Pointer × Pointer × Pointer} {l : List κ}
    (h : ∀ x ∈ l, Gives (f x) st () [given x]) : Gives (l.forM f) st () (l.map given) := by
  induction l with
  | nil => exact ⟨[], rfl, rfl⟩
  | cons x l ih =>
    have hrest := ih fun y hy => h y (List.mem_cons_of_mem _ hy)
    exact (h x List.mem_cons_self).bind hrest

theorem Gives.bind_result {α β : Type} {m : EmitM α} {st : LlvmIrStorage} {a : α}
    {given : List (Pointer × Pointer × Pointer)} (h : Gives m st a given) (k : α → EmitM β) :
    ((m >>= k) st).result = (k a st).result := by
  rw [Traced.bind_def, h.result]
  rfl

theorem Gives.bind_congr {α β : Type} {m : EmitM α} {st : LlvmIrStorage} {a : α}
    {given : List (Pointer × Pointer × Pointer)} (h : Gives m st a given) {k k' : α → EmitM β}
    (hk : k a st = k' a st) : (m >>= k) st = (m >>= k') st := by
  rw [Traced.bind_def, Traced.bind_def, h.result]
  simp only [Traced.resume, hk]

theorem gives_fetch {α : Type} {table : List α} {idx : Nat} {a : α} (st : LlvmIrStorage)
    (h : table[idx]? = some a) : Gives (fetch table idx) st a [] :=
  ⟨[], by simp [fetch, h], rfl⟩

/-- A look into one of the maps. -/
theorem gives_looked {table : LlvmIrStorage → List Pointer} {note : Pointer → Event}
    {st : LlvmIrStorage} {idx : Nat} {found : Pointer} (h : (table st)[idx]? = some found)
    (hnote : received [note found] = []) :
    Gives (do
      let found ← fetch (table (← Traced.get)) idx
      Traced.tell (note found)
      pure found) st found [] := by
  have hget : Gives Traced.get st st [] := ⟨[], rfl, rfl⟩
  have htell : Gives (Traced.tell (note found)) st () [] := ⟨_, rfl, hnote⟩
  have hpure : Gives (pure found) st found [] := ⟨[], rfl, rfl⟩
  exact hget.bind ((gives_fetch st h).bind (htell.bind hpure))

theorem gives_registerValue {st : LlvmIrStorage} {idx : RegisterIdx} {found : Pointer}
    (h : st.registers[idx]? = some found) : Gives (registerValue idx) st found [] :=
  gives_looked h rfl

theorem gives_blockValue {st : LlvmIrStorage} {idx : BlockIdx} {found : Pointer}
    (h : st.blocks[idx]? = some found) : Gives (blockValue idx) st found [] :=
  gives_looked h rfl

theorem gives_immutableValue {st : LlvmIrStorage} {idx : ImmutableIdx} {found : Pointer}
    (h : st.immutables[idx]? = some found) : Gives (immutableValue idx) st found [] :=
  gives_looked h rfl

theorem gives_resolveOperandValue {st : LlvmIrStorage} {op : Operand} {value : Pointer}
    (h : operandValue st op = some value) : Gives (resolveOperandValue op) st value [] := by
  unfold operandValue at h
  unfold resolveOperandValue
  split at h
  next idx hop => simpa only [hop] using gives_registerValue h
  next idx hop => simpa only [hop] using gives_blockValue h
  next idx hop => simpa only [hop] using gives_immutableValue h
  next => exact absurd h (by simp)

section
variable {s : Storage} {i : Instruction}

/-! ## One parameter -/

theorem gives_emitIncoming {st : LlvmIrStorage} {current phi value : Pointer}
    {pidx : BlockParamIdx} {param : BlockParam} {op : Operand}
    (hparam : s.blockParams[pidx]? = some param) (hphi : st.registers[param.reg]? = some phi)
    (hop : s.operands[i.operands.head + 1 + pidx]? = some op)
    (hvalue : operandValue st op = some value) :
    Gives (emitIncoming s i current pidx) st () [(phi, value, current)] := by
  have hread : Gives (resolveAt s (i.operands.head + 1 + pidx)) st value [] :=
    (gives_fetch st hop).bind (gives_resolveOperandValue hvalue)
  have htell : Gives (Traced.tell (.addIncoming phi value current)) st ()
      [(phi, value, current)] := ⟨_, rfl, rfl⟩
  exact (gives_fetch st hparam).bind ((gives_registerValue hphi).bind (hread.bind htell))

/-- A run ends where what follows always ends. -/
theorem bind_stops {α β : Type} {m : EmitM α} {k : α → EmitM β}
    (hk : ∀ a st, (k a st).result = none) (st : LlvmIrStorage) : ((m >>= k) st).result = none := by
  rw [Traced.bind_def]
  cases (m st).result with
  | none => rfl
  | some out => exact hk out.1 out.2

theorem forM_stops {κ : Type} {f : κ → EmitM Unit} {l : List κ} {x : κ} (hx : x ∈ l)
    (hf : ∀ st, (f x st).result = none) (st : LlvmIrStorage) : (l.forM f st).result = none := by
  induction l generalizing st with
  | nil => cases hx
  | cons y l ih =>
    show ((f y >>= fun _ => l.forM f) st).result = none
    rcases List.mem_cons.mp hx with rfl | hl
    · rw [Traced.bind_def, hf st]
      rfl
    · exact bind_stops (fun _ => ih hl) st

theorem forM_congr {κ : Type} {f g : κ → EmitM Unit} {l : List κ} (h : ∀ x ∈ l, f x = g x) :
    l.forM f = l.forM g := by
  induction l with
  | nil => rfl
  | cons x l ih =>
    show (f x >>= fun _ => l.forM f) = g x >>= fun _ => l.forM g
    rw [h x List.mem_cons_self, ih fun y hy => h y (List.mem_cons_of_mem _ hy)]

/-- Without the operand that the emitter looks for, the run ends. -/
theorem emitIncoming_stops {current : Pointer} {pidx : BlockParamIdx}
    (hop : s.operands[i.operands.head + 1 + pidx]? = none) (st : LlvmIrStorage) :
    (emitIncoming s i current pidx st).result = none := by
  have hread : resolveAt s (i.operands.head + 1 + pidx) = Traced.stop := by
    simp [resolveAt, fetch, hop]
  rw [emitIncoming, hread]
  exact bind_stops (fun _ => bind_stops fun _ _ => rfl) st

/-- The parameter's step looks at one operand. -/
theorem emitIncoming_congr {operands : List Operand} {current : Pointer} {pidx : BlockParamIdx}
    (h : operands[i.operands.head + 1 + pidx]? = s.operands[i.operands.head + 1 + pidx]?) :
    emitIncoming { s with operands := operands } i current pidx = emitIncoming s i current pidx := by
  have hread : resolveAt { s with operands := operands } (i.operands.head + 1 + pidx) =
      resolveAt s (i.operands.head + 1 + pidx) := by
    simp only [resolveAt, fetch, h]
  simp only [emitIncoming, hread]

/-! ## The whole branch -/

/-- A branch whose target is made, with as many arguments as the target has parameters. The phi
nodes and the arguments can be read. -/
structure BranchReady (s : Storage) (st : LlvmIrStorage) (i : Instruction) (block : Block) :
    Prop where
  target : ∃ op target value, s.operands[i.operands.head]? = some op ∧ op.asBlock = some target ∧
    st.blocks[target]? = some value ∧ s.blocks[target]? = some block
  counts : i.operands.size = block.blockParams.size + 1
  params : ∀ pidx ∈ block.blockParams.toList, ∃ param phi, s.blockParams[pidx]? = some param ∧
    st.registers[param.reg]? = some phi
  args : ∀ j < block.blockParams.size, ∃ op value, s.operands[i.operands.head + 1 + j]? = some op ∧
    operandValue st op = some value

/-- The run finishes. The phi node of the `j`-th parameter receives the value of operand `1 + j`,
for every parameter and nothing else, and what stands outside the range of the operands makes no
difference. -/
structure ArgumentsInOrder (s : Storage) (st : LlvmIrStorage) (iidx : InstructionIdx)
    (i : Instruction) (block : Block) : Prop where
  finishes : (emitBr s iidx i st).result.isSome = true
  count : (received (emitBr s iidx i st).log).length = block.blockParams.size
  inOrder : ∀ j < block.blockParams.size, ∀ param phi op value,
    s.blockParams[block.blockParams.head + j]? = some param →
    st.registers[param.reg]? = some phi → s.operands[i.operands.head + 1 + j]? = some op →
    operandValue st op = some value →
    (received (emitBr s iidx i st).log)[j]? = some (phi, value, st.insertBlock)
  confined : ∀ operands : List Operand,
    (∀ idx ∈ i.operands.toList, operands[idx]? = s.operands[idx]?) →
    emitBr { s with operands := operands } iidx i st = emitBr s iidx i st

variable {st : LlvmIrStorage} {iidx : InstructionIdx} {block : Block} {op : Operand}
  {target : BlockIdx} {value : Pointer}

theorem gives_build (operands : List Pointer) (indices : List (BitVec 32)) :
    Gives (build iidx operands indices) st (some (.instr iidx)) [] :=
  ⟨[.build iidx operands indices], rfl, rfl⟩

/-- Once the target is found, the branch is the steps of the target's parameters. -/
theorem emitBr_result (hop : s.operands[i.operands.head]? = some op)
    (htarget : op.asBlock = some target) (hvalue : st.blocks[target]? = some value)
    (hblock : s.blocks[target]? = some block) :
    (emitBr s iidx i st).result =
      (block.blockParams.toList.forM (emitIncoming s i st.insertBlock) st).result := by
  have hget : Gives Traced.get st st [] := ⟨[], rfl, rfl⟩
  have horStop : Gives (orStop op.asBlock) st target [] := by
    rw [htarget]
    exact ⟨[], rfl, rfl⟩
  rw [emitBr, (gives_fetch st hop).bind_result, horStop.bind_result,
    (gives_blockValue hvalue).bind_result, hget.bind_result,
    (gives_build [value] []).bind_result, (gives_fetch st hblock).bind_result]

theorem gives_emitBr {given : List (Pointer × Pointer × Pointer)}
    (hop : s.operands[i.operands.head]? = some op) (htarget : op.asBlock = some target)
    (hvalue : st.blocks[target]? = some value) (hblock : s.blocks[target]? = some block)
    (h : Gives (block.blockParams.toList.forM (emitIncoming s i st.insertBlock)) st () given) :
    Gives (emitBr s iidx i) st () given := by
  have hget : Gives Traced.get st st [] := ⟨[], rfl, rfl⟩
  have horStop : Gives (orStop op.asBlock) st target [] := by
    rw [htarget]
    exact ⟨[], rfl, rfl⟩
  exact (gives_fetch st hop).bind <| horStop.bind <| (gives_blockValue hvalue).bind <|
    hget.bind <| (gives_build [value] []).bind <| (gives_fetch st hblock).bind h

/-- What the phi node of a parameter is given, the argument read at the offset `j`. -/
def incomingAt (s : Storage) (st : LlvmIrStorage) (i : Instruction) (pidx : BlockParamIdx)
    (j : Nat) : Pointer × Pointer × Pointer :=
  ((s.blockParams[pidx]?.bind fun param => st.registers[param.reg]?).join,
    (s.operands[i.operands.head + 1 + j]?.bind (operandValue st)).join, st.insertBlock)

/-- Of the first parameters of the table, each gets the argument of its own position. -/
theorem gives_params (ready : BranchReady s st i block)
    (hfirst : block.blockParams.size = 0 ∨ block.blockParams.head = 0) :
    Gives (emitBr s iidx i) st ()
      (block.blockParams.toList.map fun pidx => incomingAt s st i pidx pidx) := by
  obtain ⟨op, target, value, hop, htarget, hvalue, hblock⟩ := ready.target
  refine gives_emitBr hop htarget hvalue hblock (Gives.forM fun pidx hpidx => ?_)
  obtain ⟨param, phi, hparam, hphi⟩ := ready.params pidx hpidx
  obtain ⟨arg, argVal, harg, hargVal⟩ := ready.args pidx (by
    rw [IdxRange.mem_toList] at hpidx
    omega)
  have hgiven : incomingAt s st i pidx pidx = (phi, argVal, st.insertBlock) := by
    simp [incomingAt, hparam, hphi, harg, hargVal]
  rw [hgiven]
  exact gives_emitIncoming hparam hphi harg hargVal

/-- Where the branch looks at its own operands only. -/
theorem emitBr_confined (ready : BranchReady s st i block)
    (hfirst : block.blockParams.size = 0 ∨ block.blockParams.head = 0) {operands : List Operand}
    (h : ∀ idx ∈ i.operands.toList, operands[idx]? = s.operands[idx]?) :
    emitBr { s with operands := operands } iidx i st = emitBr s iidx i st := by
  obtain ⟨op, target, value, hop, htarget, hvalue, hblock⟩ := ready.target
  have hcounts := ready.counts
  have hread (j : Nat) (hj : j ≤ block.blockParams.size) :
      operands[i.operands.head + j]? = s.operands[i.operands.head + j]? :=
    h _ (IdxRange.mem_toList.mpr ⟨by omega, by omega⟩)
  have hget : Gives Traced.get st st [] := ⟨[], rfl, rfl⟩
  have horStop : Gives (orStop op.asBlock) st target [] := by
    rw [htarget]
    exact ⟨[], rfl, rfl⟩
  have hparams : block.blockParams.toList.forM
      (emitIncoming { s with operands := operands } i st.insertBlock) =
        block.blockParams.toList.forM (emitIncoming s i st.insertBlock) := by
    refine forM_congr fun pidx hpidx => emitIncoming_congr ?_
    rw [IdxRange.mem_toList] at hpidx
    rw [Nat.add_assoc]
    exact hread _ (by omega)
  have hhead : fetch operands i.operands.head = fetch s.operands i.operands.head := by
    simp only [fetch, show operands[i.operands.head]? = s.operands[i.operands.head]? from
      hread 0 (by omega)]
  rw [emitBr, emitBr, hhead]
  refine (gives_fetch st hop).bind_congr <| horStop.bind_congr <|
    (gives_blockValue hvalue).bind_congr <| hget.bind_congr <|
    (gives_build [value] []).bind_congr <| (gives_fetch st hblock).bind_congr ?_
  rw [hparams]

/-- A branch to a block whose parameters stand behind others needs operands of its neighbours. -/
theorem first_of_confined (ready : BranchReady s st i block)
    (hfinishes : (emitBr s iidx i st).result.isSome = true)
    (hconfined : ∀ operands : List Operand,
      (∀ idx ∈ i.operands.toList, operands[idx]? = s.operands[idx]?) →
      emitBr { s with operands := operands } iidx i st = emitBr s iidx i st) :
    block.blockParams.size = 0 ∨ block.blockParams.head = 0 := by
  by_contra hnot
  obtain ⟨hsize, hhead⟩ := not_or.mp hnot
  obtain ⟨op, target, value, hop, htarget, hvalue, hblock⟩ := ready.target
  have hcounts := ready.counts
  -- The table is cut right behind the branch, so the last parameter finds nothing.
  let cut := s.operands.take (i.operands.head + i.operands.size)
  have hagree : ∀ idx ∈ i.operands.toList, cut[idx]? = s.operands[idx]? := fun idx hidx =>
    List.getElem?_take_of_lt (IdxRange.mem_toList.mp hidx).2
  have hcutHead : cut[i.operands.head]? = some op := by
    rw [hagree _ (IdxRange.mem_toList.mpr ⟨Nat.le_refl _, by omega⟩), hop]
  have hlast : block.blockParams.head + block.blockParams.size - 1 ∈ block.blockParams.toList :=
    IdxRange.mem_toList.mpr ⟨by omega, by omega⟩
  have hnone : cut[i.operands.head + 1 + (block.blockParams.head + block.blockParams.size - 1)]? =
      none := List.getElem?_eq_none (Nat.le_trans (List.length_take_le _ _) (by omega))
  have hcut := congrArg Outcome.result (hconfined cut hagree)
  rw [emitBr_result (s := { s with operands := cut }) hcutHead htarget hvalue hblock] at hcut
  rw [← hcut, forM_stops hlast (emitIncoming_stops hnone)] at hfinishes
  cases hfinishes

/-- **Branch arguments.** The arguments of a branch reach the parameters in order, and only its own
operands are read, exactly where the target has no parameters or has the first ones of the
table. -/
theorem argumentsInOrder_iff (ready : BranchReady s st i block) :
    ArgumentsInOrder s st iidx i block ↔
      block.blockParams.size = 0 ∨ block.blockParams.head = 0 := by
  constructor
  · intro h
    exact first_of_confined ready h.finishes h.confined
  · intro hfirst
    have hgives : Gives (emitBr s iidx i) st ()
        (block.blockParams.toList.map fun pidx => incomingAt s st i pidx pidx) :=
      gives_params ready hfirst
    refine ⟨by rw [hgives.result]; rfl, ?_, ?_, fun operands h => emitBr_confined ready hfirst h⟩
    · rw [hgives.received, List.length_map]
      exact List.length_range'
    · intro j hj param phi op value hparam hphi hop hvalue
      have hhead : block.blockParams.head = 0 := hfirst.resolve_left (by omega)
      rw [hgives.received, IdxRange.toList, List.getElem?_map, List.getElem?_range' hj, hhead]
      rw [hhead, Nat.zero_add] at hparam
      simp [incomingAt, hparam, hphi, hop, hvalue]

end

/-- A function of three blocks. The first one gives its target an argument, which the target gives
on to the third block. -/
def handsOn : Storage where
  functions := [⟨⟨0, ⟨0, 0⟩, 0⟩, ⟨0, 3⟩⟩]
  blocks := [⟨⟨0, 1⟩, ⟨0, 0⟩⟩, ⟨⟨1, 1⟩, ⟨0, 1⟩⟩, ⟨⟨2, 1⟩, ⟨1, 1⟩⟩]
  blockParams := [⟨1, 0⟩, ⟨1, 1⟩]
  instrs := [⟨.br, .add, none, ⟨0, 2⟩⟩, ⟨.br, .add, none, ⟨2, 2⟩⟩, ⟨.ret, .add, none, ⟨4, 1⟩⟩]
  immutables := [⟨1, 7⟩]
  registers := [⟨1⟩, ⟨1⟩]
  externalFunctions := []
  operands := [⟨.block 1, 0⟩, ⟨.immutable 0, 1⟩, ⟨.block 2, 0⟩, ⟨.register 0, 1⟩, ⟨.register 1, 1⟩]
  types := [⟨.void, 0⟩, ⟨.i32, 0⟩]
  structTypes := []
  arrayTypes := []
  enumTypes := []
  enumVariantTypes := []
  refTypes := []
  tupleTypes := []

/-- The maps when the body of the block is emitted. -/
def handsOnAt (bidx : BlockIdx) : LlvmIrStorage where
  functions := [some (.function 0)]
  registers := [some (.phi 0), some (.phi 1)]
  blocks := [some (.block 0), some (.block 1), some (.block 2)]
  immutables := [some (.immutable 0)]
  externalFunctions := []
  allocaTypes := [none, none]
  insertBlock := some (.block bidx)

theorem handsOn_first_ready :
    BranchReady handsOn (handsOnAt 0) ⟨.br, .add, none, ⟨0, 2⟩⟩ ⟨⟨1, 1⟩, ⟨0, 1⟩⟩ where
  target := ⟨_, 1, _, rfl, rfl, rfl, rfl⟩
  counts := rfl
  params := fun pidx h => by
    obtain rfl : pidx = 0 := by simpa [IdxRange.toList] using h
    exact ⟨_, _, rfl, rfl⟩
  args := fun j h => by
    obtain rfl : j = 0 := Nat.lt_one_iff.mp h
    exact ⟨_, _, rfl, rfl⟩

/-- The first block's argument arrives. -/
theorem handsOn_first : ArgumentsInOrder handsOn (handsOnAt 0) 0 ⟨.br, .add, none, ⟨0, 2⟩⟩
    ⟨⟨1, 1⟩, ⟨0, 1⟩⟩ :=
  (argumentsInOrder_iff handsOn_first_ready).mpr (.inr rfl)

/-- The second block's does not: the operand of the `Ret` behind it goes to the phi node. -/
theorem handsOn_second : verifyStorage handsOn = .ok () ∧
    BranchReady handsOn (handsOnAt 1) ⟨.br, .add, none, ⟨2, 2⟩⟩ ⟨⟨2, 1⟩, ⟨1, 1⟩⟩ ∧
    received (emit handsOn (sized handsOn)).log =
      [(some (.phi 0), some (.immutable 0), some (.block 0)),
        (some (.phi 1), some (.phi 1), some (.block 1))] ∧
    ¬ ArgumentsInOrder handsOn (handsOnAt 1) 1 ⟨.br, .add, none, ⟨2, 2⟩⟩ ⟨⟨2, 1⟩, ⟨1, 1⟩⟩ := by
  refine ⟨by decide, ⟨⟨_, 2, _, rfl, rfl, rfl, rfl⟩, rfl, ?_, ?_⟩, rfl, ?_⟩
  · intro pidx h
    obtain rfl : pidx = 1 := by simpa [IdxRange.toList] using h
    exact ⟨_, _, rfl, rfl⟩
  · intro j h
    obtain rfl : j = 0 := Nat.lt_one_iff.mp h
    exact ⟨_, _, rfl, rfl⟩
  · intro h
    have hsecond := h.inOrder 0 (by decide) _ _ _ _ rfl rfl rfl rfl
    cases hsecond

end Alcy.Codegen
