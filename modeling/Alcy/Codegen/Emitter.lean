import Alcy.Ir.Storage
import Alcy.Lib.Traced

/-! # The LLVM emitter

`LlvmIrEmitter` as a release build runs it: the checks of debug builds are not there. LLVM itself
is not modelled. A value LLVM hands out is named by the entity it was made for, and what the
emitter passes to LLVM is logged: the operands of each instruction it builds, the values that reach
a phi node. `none` is the null pointer. A run ends early where the source reaches `UNREACHABLE()`,
reads past the end of a table, or recurses without end in `type`.
-/
namespace Alcy.Codegen

open Alcy.Ir Alcy.Lib

/-- `llvm::Type`. -/
inductive LlvmType where
  | void
  | int (bits : Nat)
  | float
  | double
  | ptr
  | struct (fields : List LlvmType)
  | array (element : LlvmType) (count : Nat)

/-- `llvm::Value`, by what it was made for. -/
inductive Value where
  | function (idx : FunctionIdx)
  | externalFunction (idx : ExternalFunctionIdx)
  | block (idx : BlockIdx)
  | immutable (idx : ImmutableIdx)
  | phi (param : BlockParamIdx)
  | instr (idx : InstructionIdx)
  deriving DecidableEq

/-- A pointer to an LLVM value. -/
abbrev Pointer := Option Value

/-- The constants made for immediates. -/
inductive Constant where
  | int (type : LlvmType) (value : BitVec 64) (isSigned : Bool)
  | fp (type : LlvmType) (data : BitVec 64)
  | str (id : BitVec 64)

/-- What the emitter does to its value maps, and what it asks LLVM for. -/
inductive Event where
  | functionValue (idx : FunctionIdx) (found : Pointer)
  | externalFunctionValue (idx : ExternalFunctionIdx) (found : Pointer)
  | registerValue (idx : RegisterIdx) (found : Pointer)
  | blockValue (idx : BlockIdx) (found : Pointer)
  | immutableValue (idx : ImmutableIdx) (found : Pointer)
  | addFunction (idx : FunctionIdx) (name : StringPoolId) (params : List LlvmType)
      (result : LlvmType)
  | addExternalFunction (idx : ExternalFunctionIdx) (name : StringPoolId)
      (params : List LlvmType) (result : LlvmType)
  | addRegister (idx : RegisterIdx) (value : Pointer)
  | addBlock (idx : BlockIdx)
  | addImmutable (idx : ImmutableIdx) (value : Constant)
  | build (iidx : InstructionIdx) (operands : List Pointer) (indices : List (BitVec 32))
  | buildPhi (param : BlockParamIdx) (type : LlvmType)
  | addIncoming (phi value block : Pointer)

/-- `LlvmIrStorage` with the builder's insertion point. -/
structure LlvmIrStorage where
  functions : List Pointer
  registers : List Pointer
  blocks : List Pointer
  immutables : List Pointer
  externalFunctions : List Pointer
  allocaTypes : List (Option LlvmType)
  insertBlock : Pointer

abbrev EmitM := Traced LlvmIrStorage Event

/-- A table's `operator[]`. -/
def fetch {α : Type} (table : List α) (idx : Nat) : EmitM α :=
  match table[idx]? with
  | some a => pure a
  | none => Traced.stop

/-- A value that only some cases of the source provide. -/
def orStop {α : Type} (data : Option α) : EmitM α :=
  match data with
  | some a => pure a
  | none => Traced.stop

/-! ## The value maps -/

def functionValue (idx : FunctionIdx) : EmitM Pointer := do
  let found ← fetch (← Traced.get).functions idx
  Traced.tell (.functionValue idx found)
  pure found

def externalFunctionValue (idx : ExternalFunctionIdx) : EmitM Pointer := do
  let found ← fetch (← Traced.get).externalFunctions idx
  Traced.tell (.externalFunctionValue idx found)
  pure found

def registerValue (idx : RegisterIdx) : EmitM Pointer := do
  let found ← fetch (← Traced.get).registers idx
  Traced.tell (.registerValue idx found)
  pure found

def blockValue (idx : BlockIdx) : EmitM Pointer := do
  let found ← fetch (← Traced.get).blocks idx
  Traced.tell (.blockValue idx found)
  pure found

def immutableValue (idx : ImmutableIdx) : EmitM Pointer := do
  let found ← fetch (← Traced.get).immutables idx
  Traced.tell (.immutableValue idx found)
  pure found

def allocaType (idx : RegisterIdx) : EmitM (Option LlvmType) := do
  fetch (← Traced.get).allocaTypes idx

def addRegister (idx : RegisterIdx) (value : Pointer) : EmitM Unit := do
  let _ ← fetch (← Traced.get).registers idx
  Traced.tell (.addRegister idx value)
  Traced.modify fun st => { st with registers := st.registers.set idx value }

def addBlock (idx : BlockIdx) : EmitM Unit := do
  let _ ← fetch (← Traced.get).blocks idx
  Traced.tell (.addBlock idx)
  Traced.modify fun st => { st with blocks := st.blocks.set idx (some (.block idx)) }

def addImmutable (idx : ImmutableIdx) (value : Constant) : EmitM Unit := do
  let _ ← fetch (← Traced.get).immutables idx
  Traced.tell (.addImmutable idx value)
  Traced.modify fun st => { st with immutables := st.immutables.set idx (some (.immutable idx)) }

def addAllocaType (idx : RegisterIdx) (type : LlvmType) : EmitM Unit := do
  let _ ← fetch (← Traced.get).allocaTypes idx
  Traced.modify fun st => { st with allocaTypes := st.allocaTypes.set idx (some type) }

/-- `builder_->SetInsertPoint(values_.block(idx))`. -/
def setInsertPoint (idx : BlockIdx) : EmitM Unit := do
  let block ← blockValue idx
  Traced.modify fun st => { st with insertBlock := block }

/-- An LLVM instruction made for the instruction `iidx`, with its value operands and, for
aggregates, its constant indexes. -/
def build (iidx : InstructionIdx) (operands : List Pointer) (indices : List (BitVec 32)) :
    EmitM Pointer := do
  Traced.tell (.build iidx operands indices)
  pure (some (.instr iidx))

section
variable (s : Storage)

/-! ## Types -/

/-- `type`, which follows composites to at most `fuel` levels. A chain longer than the type table
meets an entry twice, and then the source never returns. -/
def lowerType : Nat → TypeIdx → Option LlvmType
  | 0, _ => none
  | fuel + 1, idx => do
    let node ← s.types[idx]?
    match node.tag with
    | .void => some .void
    | .i1 => some (.int 1)
    | .i8 => some (.int 8)
    | .i16 => some (.int 16)
    | .i32 => some (.int 32)
    | .i64 => some (.int 64)
    | .f32 => some .float
    | .f64 => some .double
    | .ptr | .ref | .mutRef => some .ptr
    | .struct => do
      let structType ← s.structTypes[node.data]?
      let fields ← structType.fields.toList.mapM (lowerType fuel)
      some (.struct fields)
    | .array => do
      let arrayType ← s.arrayTypes[node.data]?
      let element ← lowerType fuel arrayType.element
      some (.array element arrayType.count)
    | _ => none

def type (idx : TypeIdx) : EmitM LlvmType := orStop (lowerType s (s.types.length + 1) idx)

/-! ## Operands -/

def resolveOperandValue (op : Operand) : EmitM Pointer :=
  match op.data with
  | .register idx => registerValue idx
  | .block idx => blockValue idx
  | .immutable idx => immutableValue idx
  | _ => Traced.stop

def resolveOperandFunction (op : Operand) : EmitM Pointer :=
  match op.data with
  | .function idx => functionValue idx
  | .externalFunction idx => externalFunctionValue idx
  | _ => Traced.stop

/-- `resolve_operand_value(storage_.operands()[idx])`. -/
def resolveAt (idx : OperandIdx) : EmitM Pointer := do
  resolveOperandValue (← fetch s.operands idx)

/-- `values_.block(storage_.operands()[idx].as_block())`. -/
def blockAt (idx : OperandIdx) : EmitM Pointer := do
  let op ← fetch s.operands idx
  blockValue (← orStop op.asBlock)

/-- The value of an aggregate index. -/
def aggregateIndex (idx : OperandIdx) : EmitM (BitVec 32) := do
  let op ← fetch s.operands idx
  let imm ← fetch s.immutables (← orStop op.asImmutable)
  let node ← fetch s.types imm.type
  let value ← orStop (imm.asU64Integer node.tag)
  pure (value.setWidth 32)

/-- `if (dst.is_valid()) add_register(dst, value)`. -/
def addDst (dst : Option RegisterIdx) (value : Pointer) : EmitM Unit :=
  match dst with
  | none => pure ()
  | some dst => addRegister dst value

/-! ## Computing instructions -/

/-- The lambda `binary`: without a destination nothing is emitted. -/
def emitBinary (iidx : InstructionIdx) (i : Instruction) : EmitM Unit := do
  let lhs ← fetch s.operands i.operands.head
  let rhs ← fetch s.operands (i.operands.head + 1)
  match i.dst with
  | none => pure ()
  | some dst =>
    let lhs ← resolveOperandValue lhs
    let rhs ← resolveOperandValue rhs
    addRegister dst (← build iidx [lhs, rhs] [])

def emitNot (iidx : InstructionIdx) (i : Instruction) : EmitM Unit := do
  let lhs ← fetch s.operands i.operands.head
  match i.dst with
  | none => pure ()
  | some dst =>
    let value ← resolveOperandValue lhs
    addRegister dst (← build iidx [value] [])

def emitBitReverse (iidx : InstructionIdx) (i : Instruction) : EmitM Unit := do
  let value ← resolveAt s i.operands.head
  match i.dst with
  | none => pure ()
  | some dst => addRegister dst (← build iidx [value] [])

/-- What a comparison accepts as the type of its left operand. -/
def comparable (op : Opcode) (tag : TypeTag) : Bool :=
  isIntegerType tag || isFloatType tag || (tag == .ptr && (op == .eq || op == .ne))

def emitCompare (iidx : InstructionIdx) (i : Instruction) : EmitM Unit := do
  let lhs ← fetch s.operands i.operands.head
  let rhs ← fetch s.operands (i.operands.head + 1)
  let node ← fetch s.types lhs.type
  let lhsVal ← resolveOperandValue lhs
  let rhsVal ← resolveOperandValue rhs
  orStop (if comparable i.op node.tag then some () else none)
  addDst i.dst (← build iidx [lhsVal, rhsVal] [])

/-- The casts between different tags. -/
def castable (src dst : TypeTag) : Bool :=
  (isIntegerType src || isFloatType src) && (isIntegerType dst || isFloatType dst) ||
    isIntegerType src && dst == .ptr || src == .ptr && isIntegerType dst

def emitTypeCast (iidx : InstructionIdx) (i : Instruction) : EmitM Unit := do
  match i.dst with
  | none => pure ()
  | some dst =>
    let src ← fetch s.operands i.operands.head
    let srcNode ← fetch s.types src.type
    let dstReg ← fetch s.registers dst
    let dstNode ← fetch s.types dstReg.type
    let value ← resolveOperandValue src
    let _ ← type s dstReg.type
    let result ←
      if srcNode.tag = dstNode.tag then pure value
      else if castable srcNode.tag dstNode.tag then build iidx [value] []
      else Traced.stop
    addRegister dst result

def emitSelect (iidx : InstructionIdx) (i : Instruction) : EmitM Unit := do
  let cond ← resolveAt s i.operands.head
  let trueVal ← resolveAt s (i.operands.head + 1)
  let falseVal ← resolveAt s (i.operands.head + 2)
  match i.dst with
  | none => pure ()
  | some dst => addRegister dst (← build iidx [cond, trueVal, falseVal] [])

/-- A register alias. -/
def emitMove (i : Instruction) : EmitM Unit := do
  match i.dst with
  | none => pure ()
  | some dst => addRegister dst (← resolveAt s i.operands.head)

/-! ## Memory instructions -/

def emitAlloca (iidx : InstructionIdx) (i : Instruction) : EmitM Unit := do
  match i.dst with
  | none => pure ()
  | some dst =>
    let sizeOp ← fetch s.operands i.operands.head
    let dstReg ← fetch s.registers dst
    let elemTy ← type s dstReg.type
    let size ← resolveOperandValue sizeOp
    addRegister dst (← build iidx [size] [])
    addAllocaType dst elemTy

/-- `Load` and `AtomicLoad`. -/
def emitLoad (iidx : InstructionIdx) (i : Instruction) : EmitM Unit := do
  match i.dst with
  | none => pure ()
  | some dst =>
    let ptrOp ← fetch s.operands i.operands.head
    let dstReg ← fetch s.registers dst
    let _ ← type s dstReg.type
    let ptr ← resolveOperandValue ptrOp
    addRegister dst (← build iidx [ptr] [])

/-- `Store`, `AtomicStore` and `AtomicRmw`: built with or without a destination. -/
def emitStore (iidx : InstructionIdx) (i : Instruction) : EmitM Unit := do
  let lhs ← fetch s.operands i.operands.head
  let rhs ← fetch s.operands (i.operands.head + 1)
  let lhsVal ← resolveOperandValue lhs
  let rhsVal ← resolveOperandValue rhs
  addDst i.dst (← build iidx [lhsVal, rhsVal] [])

def emitCompareExchange (iidx : InstructionIdx) (i : Instruction) : EmitM Unit := do
  let ptr ← resolveAt s i.operands.head
  let cmp ← resolveAt s (i.operands.head + 1)
  let new ← resolveAt s (i.operands.head + 2)
  addDst i.dst (← build iidx [ptr, cmp, new] [])

def emitGetElementPtr (iidx : InstructionIdx) (i : Instruction) : EmitM Unit := do
  let baseOp ← fetch s.operands i.operands.head
  let baseReg ← orStop baseOp.asRegister
  let _ ← allocaType baseReg
  let indices ← (List.range' 1 (i.operands.size - 1)).mapM fun offset =>
    resolveAt s (i.operands.head + offset)
  let base ← resolveOperandValue baseOp
  addDst i.dst (← build iidx (base :: indices) [])

def emitExtractValue (iidx : InstructionIdx) (i : Instruction) : EmitM Unit := do
  let agg ← resolveAt s i.operands.head
  let indices ← (List.range' 1 (i.operands.size - 1)).mapM fun offset =>
    aggregateIndex s (i.operands.head + offset)
  match i.dst with
  | none => pure ()
  | some dst => addRegister dst (← build iidx [agg] indices)

def emitInsertValue (iidx : InstructionIdx) (i : Instruction) : EmitM Unit := do
  let agg ← resolveAt s i.operands.head
  let fieldValue ← resolveAt s (i.operands.head + 1)
  let indices ← (List.range' 2 (i.operands.size - 2)).mapM fun offset =>
    aggregateIndex s (i.operands.head + offset)
  match i.dst with
  | none => pure ()
  | some dst => addRegister dst (← build iidx [agg, fieldValue] indices)

/-! ## Control instructions -/

/-- One parameter of a branch target. The argument is looked for at the parameter's place in the
table of all parameters. -/
def emitIncoming (i : Instruction) (current : Pointer) (pidx : BlockParamIdx) : EmitM Unit := do
  let param ← fetch s.blockParams pidx
  let phi ← registerValue param.reg
  let argVal ← resolveAt s (i.operands.head + 1 + pidx)
  Traced.tell (.addIncoming phi argVal current)

def emitBr (iidx : InstructionIdx) (i : Instruction) : EmitM Unit := do
  let targetOp ← fetch s.operands i.operands.head
  let target ← orStop targetOp.asBlock
  let targetBlock ← blockValue target
  let current := (← Traced.get).insertBlock
  let _ ← build iidx [targetBlock] []
  let block ← fetch s.blocks target
  block.blockParams.toList.forM (emitIncoming s i current)

def emitCondBr (iidx : InstructionIdx) (i : Instruction) : EmitM Unit := do
  let cond ← resolveAt s i.operands.head
  let trueBlock ← blockAt s (i.operands.head + 1)
  let falseBlock ← blockAt s (i.operands.head + 2)
  let _ ← build iidx [cond, trueBlock, falseBlock] []

/-- A case of a switch: its value and its target. -/
def emitCase (i : Instruction) (offset : Nat) : EmitM (List Pointer) := do
  let caseValue ← resolveAt s (i.operands.head + offset)
  let caseBlock ← blockAt s (i.operands.head + offset + 1)
  pure [caseValue, caseBlock]

def emitSwitch (iidx : InstructionIdx) (i : Instruction) : EmitM Unit := do
  let value ← resolveAt s i.operands.head
  let defaultBlock ← blockAt s (i.operands.head + 1)
  let cases ← (List.range' 2 ((i.operands.size - 2) / 2) 2).mapM (emitCase s i)
  let _ ← build iidx (value :: defaultBlock :: cases.flatten) []

def emitCall (iidx : InstructionIdx) (i : Instruction) : EmitM Unit := do
  let calleeOp ← fetch s.operands i.operands.head
  let callee ← resolveOperandFunction calleeOp
  let args ← (List.range' 1 (i.operands.size - 1)).mapM fun offset =>
    resolveAt s (i.operands.head + offset)
  addDst i.dst (← build iidx (callee :: args) [])

def emitRet (iidx : InstructionIdx) (i : Instruction) : EmitM Unit := do
  if i.operands.isEmpty then
    let _ ← build iidx [] []
  else
    let value ← resolveAt s i.operands.head
    let _ ← build iidx [value] []

/-- An instruction without operands. -/
def emitPlain (iidx : InstructionIdx) : EmitM Unit := do
  let _ ← build iidx [] []

def emitInstruction (iidx : InstructionIdx) (i : Instruction) : EmitM Unit :=
  match i.op with
  | .noop | .drop => pure ()
  | .intAdd | .intSub | .intMul | .intDiv | .uintDiv | .intRem | .uintRem
  | .and | .or | .xor | .shiftLeft | .arithmeticShiftRight | .logicalShiftRight =>
    emitBinary s iidx i
  | .not => emitNot s iidx i
  | .bitReverse => emitBitReverse s iidx i
  | .eq | .ne | .le | .lt | .ge | .gt => emitCompare s iidx i
  | .typeCast => emitTypeCast s iidx i
  | .select => emitSelect s iidx i
  | .move => emitMove s i
  | .alloca => emitAlloca s iidx i
  | .load | .atomicLoad => emitLoad s iidx i
  | .store | .atomicStore | .atomicRmw => emitStore s iidx i
  | .atomicCompareExchange => emitCompareExchange s iidx i
  | .getElementPtr => emitGetElementPtr s iidx i
  | .extractValue => emitExtractValue s iidx i
  | .insertValue => emitInsertValue s iidx i
  | .br => emitBr s iidx i
  | .condBr => emitCondBr s iidx i
  | .switch => emitSwitch s iidx i
  | .call => emitCall s iidx i
  | .ret => emitRet s iidx i
  | .unreachable | .fence => emitPlain iidx

/-! ## Blocks and functions -/

def emitPhi (pidx : BlockParamIdx) : EmitM Unit := do
  let param ← fetch s.blockParams pidx
  Traced.tell (.buildPhi pidx (← type s param.type))
  addRegister param.reg (some (.phi pidx))

def emitInstr (iidx : InstructionIdx) : EmitM Unit := do
  emitInstruction s iidx (← fetch s.instrs iidx)

/-- The start of a block, in the pass over phi nodes and in the pass over bodies. -/
def enterBlock (bidx : BlockIdx) : EmitM Block := do
  let block ← fetch s.blocks bidx
  setInsertPoint bidx
  pure block

def emitPhis (bidx : BlockIdx) : EmitM Unit := do
  let block ← enterBlock s bidx
  block.blockParams.toList.forM (emitPhi s)

def emitBlock (bidx : BlockIdx) : EmitM Unit := do
  let block ← enterBlock s bidx
  block.instrs.toList.forM (emitInstr s)

/-- Three passes over the blocks: declare them, make their phi nodes, emit their bodies. -/
def emitBlocks (func : Function) : EmitM Unit := do
  func.blocks.toList.forM addBlock
  func.blocks.toList.forM (emitPhis s)
  func.blocks.toList.forM (emitBlock s)

/-- `create_function`: the types of the signature. -/
def createFunction (functionMeta : FunctionMeta) : EmitM (List LlvmType × LlvmType) := do
  let params ← functionMeta.paramTypes.toList.mapM (type s)
  let result ← type s functionMeta.returnType
  pure (params, result)

def declareFunction (fidx : FunctionIdx) : EmitM Function := do
  let func ← fetch s.functions fidx
  let (params, result) ← createFunction s func.functionMeta
  let _ ← fetch (← Traced.get).functions fidx
  Traced.tell (.addFunction fidx func.functionMeta.name params result)
  Traced.modify fun st => { st with functions := st.functions.set fidx (some (.function fidx)) }
  pure func

def emitFunction (fidx : FunctionIdx) : EmitM Unit := do
  emitBlocks s (← declareFunction s fidx)

/-- The constant of an immediate. -/
def constant (immutable : Immutable) (tag : TypeTag) : EmitM Constant := do
  if isIntegerType tag then
    let type ← type s immutable.type
    let value ← orStop (immutable.asU64Integer tag)
    pure (.int type value (isSignedIntegerType tag))
  else if isFloatType tag then
    pure (.fp (← type s immutable.type) immutable.data)
  else if tag = .str then
    pure (.str immutable.data)
  else
    Traced.stop

def setupImmutable (idx : ImmutableIdx) : EmitM Unit := do
  let immutable ← fetch s.immutables idx
  let node ← fetch s.types immutable.type
  addImmutable idx (← constant s immutable node.tag)

def setupExternalFunction (idx : ExternalFunctionIdx) : EmitM Unit := do
  let func ← fetch s.externalFunctions idx
  let (params, result) ← createFunction s func.functionMeta
  let _ ← fetch (← Traced.get).externalFunctions idx
  Traced.tell (.addExternalFunction idx func.functionMeta.name params result)
  Traced.modify fun st =>
    { st with externalFunctions := st.externalFunctions.set idx (some (.externalFunction idx)) }

def setup : EmitM Unit := do
  (List.range s.immutables.length).forM (setupImmutable s)
  (List.range s.externalFunctions.length).forM (setupExternalFunction s)

/-- `emit`, after the maps were sized. -/
def emit : EmitM Unit := do
  setup s
  (List.range s.functions.length).forM (emitFunction s)

/-- The maps after the calls of `resize`. -/
def sized : LlvmIrStorage where
  functions := List.replicate s.functions.length none
  registers := List.replicate s.registers.length none
  blocks := List.replicate s.blocks.length none
  immutables := List.replicate s.immutables.length none
  externalFunctions := List.replicate s.externalFunctions.length none
  allocaTypes := List.replicate s.registers.length none
  insertBlock := none

end

end Alcy.Codegen
