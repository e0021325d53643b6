import Alcy.Codegen.Emitter
import Alcy.Ir.Accepted

/-! # The emitter's walk

The functions, blocks and instructions of a storage in the order the emitter visits them. The
nested loops of the source are one pass over this list (`emit_eq_walk`). An instruction first reads
the value maps, then writes the entry of its destination, if its kind writes one.
-/
namespace Alcy.Codegen

open Alcy.Ir Alcy.Lib Alcy.Lib.Traced

/-! ## Order -/

/-- One visit of the walk, with the function it belongs to. -/
inductive Step where
  | declareFunction (func : FunctionIdx)
  | declareBlock (func : FunctionIdx) (block : BlockIdx)
  | enterPhis (func : FunctionIdx) (block : BlockIdx)
  | phi (func : FunctionIdx) (block : BlockIdx) (param : BlockParamIdx)
  | enterBody (func : FunctionIdx) (block : BlockIdx)
  | instr (func : FunctionIdx) (block : BlockIdx) (idx : InstructionIdx)
  deriving DecidableEq

def Step.func : Step → FunctionIdx
  | .declareFunction f | .declareBlock f _ | .enterPhis f _ | .phi f _ _ | .enterBody f _
  | .instr f _ _ => f

/-- The step that emits a definition site on behalf of a function. -/
def Step.ofSite (f : FunctionIdx) : Site → Step
  | .param b p => .phi f b p
  | .instr b i => .instr f b i

/-- The opcodes whose destination entry is written. -/
def writesDst (op : Opcode) : Bool :=
  op ∉ [.noop, .drop, .br, .condBr, .switch, .ret, .unreachable, .fence]

section
variable (s : Storage)

/-- The positions of a range of a table's entry, none where the entry is missing. -/
def positions {α : Type} (table : List α) (idx : Nat) (range : α → IdxRange) : List Nat :=
  table[idx]?.elim [] fun a => (range a).toList

def blocksOf (f : FunctionIdx) : List BlockIdx := positions s.functions f Function.blocks

def phiSteps (f : FunctionIdx) (b : BlockIdx) : List Step :=
  .enterPhis f b :: (positions s.blocks b Block.blockParams).map (.phi f b)

def bodySteps (f : FunctionIdx) (b : BlockIdx) : List Step :=
  .enterBody f b :: (positions s.blocks b Block.instrs).map (.instr f b)

def functionSteps (f : FunctionIdx) : List Step :=
  .declareFunction f :: ((blocksOf s f).map (.declareBlock f) ++
    (blocksOf s f).flatMap (phiSteps s f) ++ (blocksOf s f).flatMap (bodySteps s f))

/-- The order of emission. -/
def emissionOrder : List Step := (List.range s.functions.length).flatMap (functionSteps s)

def emitStep : Step → EmitM Unit
  | .declareFunction f => do let _ ← declareFunction s f
  | .declareBlock _ b => addBlock b
  | .enterPhis _ b => do let _ ← enterBlock s b
  | .phi _ _ p => emitPhi s p
  | .enterBody _ b => do let _ ← enterBlock s b
  | .instr _ _ i => emitInstr s i

/-- The register whose entry the step writes. -/
def Step.writes : Step → Option RegisterIdx
  | .phi _ _ p => s.blockParams[p]?.map BlockParam.reg
  | .instr _ _ i => s.instrs[i]?.bind fun instr => if writesDst instr.op then instr.dst else none
  | _ => none

end

variable {s : Storage}

/-! ### The loops of the source -/

/-- An entry that a loop reads is the entry its positions were taken from. -/
theorem fetch_bind {α : Type} {table : List α} {idx : Nat} (range : α → IdxRange)
    (rest : α → EmitM Unit) (body : Nat → EmitM Unit) :
    (do let a ← fetch table idx
        rest a
        forM (range a).toList body) =
      (do rest (← fetch table idx)
          forM (positions table idx range) body) := by
  unfold fetch positions
  cases table[idx]? with
  | none => rfl
  | some a => simp

theorem forM_phiSteps (f b : Nat) :
    forM (phiSteps s f b) (emitStep s) = emitPhis s b := by
  simp only [phiSteps, List.forM_cons, emitStep, List.forM_map, emitPhis, enterBlock, bind_assoc,
    pure_bind, List.forM_eq_forM]
  exact (fetch_bind Block.blockParams (fun _ => setInsertPoint b) (emitPhi s)).symm

theorem forM_bodySteps (f b : Nat) :
    forM (bodySteps s f b) (emitStep s) = emitBlock s b := by
  simp only [bodySteps, List.forM_cons, emitStep, List.forM_map, emitBlock, enterBlock, bind_assoc,
    pure_bind, List.forM_eq_forM]
  exact (fetch_bind Block.instrs (fun _ => setInsertPoint b) (emitInstr s)).symm

theorem forM_functionSteps (f : Nat) :
    forM (functionSteps s f) (emitStep s) = emitFunction s f := by
  simp only [functionSteps, List.forM_cons, List.forM_append, List.forM_map, forM_flatMap,
    forM_phiSteps, forM_bodySteps, emitStep, emitFunction, emitBlocks, blocksOf, positions,
    declareFunction, fetch, List.forM_eq_forM, bind_assoc, pure_bind]
  cases s.functions[f]? with
  | none => rfl
  | some func => simp

/-- **The walk.** Emission is the set-up of immediates and external functions, then one pass over
the emission order. -/
theorem emit_eq_walk (s : Storage) :
    emit s = (do setup s; (emissionOrder s).forM (emitStep s)) := by
  simp only [emit, emissionOrder, List.forM_eq_forM, forM_flatMap, forM_functionSteps]

end Alcy.Codegen
