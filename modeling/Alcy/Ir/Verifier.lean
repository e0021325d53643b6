import Alcy.Ir.Storage

/-! # The verifier

`verify_storage`. It stops at the first invariant that is broken, and reads no table without a
check that the position is there: `Stop.fault` is a read that no check covers.
-/
namespace Alcy.Ir

inductive VerifyErrorKind where
  | functionBlocksOutOfRange
  | functionParamTypesOutOfRange
  | blockInstrsOutOfRange
  | blockParamsOutOfRange
  | blockParamRegOutOfRange
  | instrOperandsOutOfRange
  | instrDstOutOfRange
  | unknownOperandTag
  | operandIdxOutOfRange
  | typeIdxOutOfRange
  | structFieldsOutOfRange
  | typeMetadataOutOfRange
  | undefinedRegister
  | redefinedRegister
  | unterminatedBlock
  | misplacedTerminator
  | invalidCallee
  | invalidBranchTarget
  | invalidCondBr
  | invalidSwitch
  | invalidGetElementPtr
  | invalidExtractInsert
  | enumFieldsOutOfRange
  | tupleFieldsOutOfRange
  deriving DecidableEq

structure VerifyError where
  kind : VerifyErrorKind
  index : Nat
  deriving DecidableEq

/-- How a verification ends without accepting: with an error, or with a read outside a table. -/
inductive Stop where
  | error (e : VerifyError)
  | fault
  deriving DecidableEq

abbrev VerifyM := Except Stop

def err {α : Type} (kind : VerifyErrorKind) (index : Nat) : VerifyM α :=
  .error (.error ⟨kind, index⟩)

/-- `if (broken) return err(kind, index);` -/
def reject (broken : Prop) [Decidable broken] (kind : VerifyErrorKind) (index : Nat) :
    VerifyM Unit :=
  if broken then err kind index else .ok ()

/-- A table's `operator[]`. -/
def read {α : Type} (table : List α) (idx : Nat) : VerifyM α :=
  match table[idx]? with
  | some a => .ok a
  | none => .error .fault

/-- The payload of a tagged value, under the tag that was tested. -/
def payload {α : Type} (data : Option α) : VerifyM α :=
  match data with
  | some a => .ok a
  | none => .error .fault

def isTerminator (op : Opcode) : Bool :=
  op = .br ∨ op = .condBr ∨ op = .switch ∨ op = .ret ∨ op = .unreachable

def rangeInBounds (range : IdxRange) (vecSize : Nat) : Bool :=
  range.head + range.size ≤ vecSize

section
variable (s : Storage)

/-! ## Tables of types and values -/

def verifyVariant (vidx : EnumVariantTypeIdx) : VerifyM Unit := do
  let variant ← read s.enumVariantTypes vidx
  reject (¬ rangeInBounds variant.fields s.types.length) .enumFieldsOutOfRange vidx

def verifyType (tidx : TypeIdx) : VerifyM Unit := do
  let node ← read s.types tidx
  if node.tag = .struct then
    let sidx ← payload node.asStruct
    reject (s.structTypes.length ≤ sidx) .typeMetadataOutOfRange tidx
    let structType ← read s.structTypes sidx
    reject (¬ rangeInBounds structType.fields s.types.length) .structFieldsOutOfRange sidx
  else if node.tag = .array then
    let aidx ← payload node.asArray
    reject (s.arrayTypes.length ≤ aidx) .typeMetadataOutOfRange tidx
    let arrayType ← read s.arrayTypes aidx
    reject (s.types.length ≤ arrayType.element) .typeIdxOutOfRange arrayType.element
  else if node.tag = .enum then
    let eidx ← payload node.asEnum
    reject (s.enumTypes.length ≤ eidx) .typeMetadataOutOfRange tidx
    let enumType ← read s.enumTypes eidx
    reject (¬ rangeInBounds enumType.variants s.enumVariantTypes.length)
      .typeMetadataOutOfRange tidx
    enumType.variants.toList.forM (verifyVariant s)
  else if node.tag = .tuple then
    let tupleIdx ← payload node.asTuple
    reject (s.tupleTypes.length ≤ tupleIdx) .typeMetadataOutOfRange tidx
    let tuple ← read s.tupleTypes tupleIdx
    reject (¬ rangeInBounds tuple.elements s.types.length) .tupleFieldsOutOfRange tupleIdx
  else
    .ok ()

def verifyRegister (ridx : RegisterIdx) : VerifyM Unit := do
  let register ← read s.registers ridx
  reject (s.types.length ≤ register.type) .typeIdxOutOfRange ridx

def verifyImmutable (iidx : ImmutableIdx) : VerifyM Unit := do
  let immutable ← read s.immutables iidx
  reject (s.types.length ≤ immutable.type) .typeIdxOutOfRange iidx

def verifyFunction (fidx : FunctionIdx) : VerifyM Unit := do
  let func ← read s.functions fidx
  reject (¬ rangeInBounds func.blocks s.blocks.length) .functionBlocksOutOfRange fidx
  reject (s.types.length ≤ func.functionMeta.returnType) .typeIdxOutOfRange fidx
  func.functionMeta.paramTypes.toList.forM fun tidx =>
    reject (s.types.length ≤ tidx) .typeIdxOutOfRange tidx

/-! ## Register definitions -/

/-- One bit of the vector `defined`, which no two definitions may set. -/
def define (defined : List Bool) (reg : RegisterIdx) : VerifyM (List Bool) := do
  let already ← read defined reg
  reject (already = true) .redefinedRegister reg
  pure (defined.set reg true)

def defineParam (defined : List Bool) (pidx : BlockParamIdx) : VerifyM (List Bool) := do
  let param ← read s.blockParams pidx
  reject (s.types.length ≤ param.type) .typeIdxOutOfRange pidx
  reject (s.registers.length ≤ param.reg) .blockParamRegOutOfRange param.reg
  define defined param.reg

def defineDst (defined : List Bool) (iidx : InstructionIdx) : VerifyM (List Bool) := do
  let instr ← read s.instrs iidx
  match instr.dst with
  | none => pure defined
  | some dst =>
    reject (s.registers.length ≤ dst) .instrDstOutOfRange iidx
    define defined dst

def defineBlock (defined : List Bool) (bidx : BlockIdx) : VerifyM (List Bool) := do
  let block ← read s.blocks bidx
  reject (¬ rangeInBounds block.instrs s.instrs.length) .blockInstrsOutOfRange bidx
  reject (¬ rangeInBounds block.blockParams s.blockParams.length) .blockParamsOutOfRange bidx
  let defined ← block.blockParams.toList.foldlM (defineParam s) defined
  block.instrs.toList.foldlM (defineDst s) defined

/-! ## Instructions -/

def verifyOperand (defined : List Bool) (oidx : OperandIdx) : VerifyM Unit := do
  let operand ← read s.operands oidx
  reject (s.types.length ≤ operand.type) .typeIdxOutOfRange oidx
  match operand.data with
  | .register idx =>
    reject (s.registers.length ≤ idx) .operandIdxOutOfRange oidx
    let isDefined ← read defined idx
    reject (isDefined = false) .undefinedRegister idx
  | .function idx => reject (s.functions.length ≤ idx) .operandIdxOutOfRange oidx
  | .block idx => reject (s.blocks.length ≤ idx) .operandIdxOutOfRange oidx
  | .immutable idx => reject (s.immutables.length ≤ idx) .operandIdxOutOfRange oidx
  | .externalFunction idx => reject (s.externalFunctions.length ≤ idx) .operandIdxOutOfRange oidx
  | .void => err .unknownOperandTag oidx

/-- The signature of the callee that a call's first operand names. -/
def calleeMeta (iidx : InstructionIdx) (head : Operand) : VerifyM FunctionMeta :=
  match head.data with
  | .function idx => do
    let func ← read s.functions idx
    pure func.functionMeta
  | .externalFunction idx => do
    let func ← read s.externalFunctions idx
    pure func.functionMeta
  | _ => err .invalidCallee iidx

def verifyCall (iidx : InstructionIdx) (ops : IdxRange) : VerifyM Unit := do
  reject (ops.isEmpty) .invalidCallee iidx
  let head ← read s.operands ops.head
  let calleeMeta ← calleeMeta s iidx head
  reject (ops.size - 1 ≠ calleeMeta.paramTypes.size) .invalidCallee iidx

def verifyBr (iidx : InstructionIdx) (ops : IdxRange) : VerifyM Unit := do
  reject (ops.isEmpty) .invalidBranchTarget iidx
  let target ← read s.operands ops.head
  reject (target.asBlock.isNone) .invalidBranchTarget iidx

/-- A branch target that takes no block parameters. -/
def verifyPlainTarget (kind : VerifyErrorKind) (iidx : InstructionIdx) (target : Operand) :
    VerifyM Unit := do
  reject (target.asBlock.isNone) kind iidx
  let bidx ← payload target.asBlock
  let block ← read s.blocks bidx
  reject (¬ block.blockParams.isEmpty) kind iidx

def verifyCondBr (iidx : InstructionIdx) (ops : IdxRange) : VerifyM Unit := do
  reject (ops.size ≠ 3) .invalidCondBr iidx
  let cond ← read s.operands ops.head
  let condType ← read s.types cond.type
  reject (condType.tag ≠ .i1) .invalidCondBr iidx
  [1, 2].forM fun offset => do
    let target ← read s.operands (ops.head + offset)
    verifyPlainTarget s .invalidCondBr iidx target

def verifySwitchCase (iidx : InstructionIdx) (ops : IdxRange) (offset : Nat) : VerifyM Unit := do
  let caseValue ← read s.operands (ops.head + offset)
  let caseTarget ← read s.operands (ops.head + offset + 1)
  reject (caseValue.asImmutable.isNone) .invalidSwitch iidx
  verifyPlainTarget s .invalidSwitch iidx caseTarget

def verifySwitch (iidx : InstructionIdx) (ops : IdxRange) : VerifyM Unit := do
  reject (ops.size < 2 ∨ ops.size % 2 ≠ 0) .invalidSwitch iidx
  let value ← read s.operands ops.head
  let valueType ← read s.types value.type
  reject (¬ isIntegerType valueType.tag) .invalidSwitch iidx
  let defaultTarget ← read s.operands (ops.head + 1)
  verifyPlainTarget s .invalidSwitch iidx defaultTarget
  (List.range' 2 ((ops.size - 1) / 2) 2).forM (verifySwitchCase s iidx ops)

def verifyGetElementPtr (iidx : InstructionIdx) (ops : IdxRange) : VerifyM Unit := do
  reject (ops.size < 2) .invalidGetElementPtr iidx
  let base ← read s.operands ops.head
  reject (base.asRegister.isNone) .invalidGetElementPtr iidx
  (List.range' 1 (ops.size - 1)).forM fun offset => do
    let index ← read s.operands (ops.head + offset)
    let indexType ← read s.types index.type
    reject (¬ isIntegerType indexType.tag) .invalidGetElementPtr iidx

def verifyExtractInsert (iidx : InstructionIdx) (op : Opcode) (ops : IdxRange) : VerifyM Unit := do
  let firstIndex := if op = .extractValue then 1 else 2
  reject (ops.size < firstIndex + 1) .invalidExtractInsert iidx
  (List.range' firstIndex (ops.size - firstIndex)).forM fun offset => do
    let index ← read s.operands (ops.head + offset)
    reject (index.asImmutable.isNone) .invalidExtractInsert iidx
    let indexType ← read s.types index.type
    reject (¬ isIntegerType indexType.tag) .invalidExtractInsert iidx

/-- The shape of the operands that the opcode asks for. -/
def verifyShape (iidx : InstructionIdx) (instr : Instruction) : VerifyM Unit :=
  match instr.op with
  | .call => verifyCall s iidx instr.operands
  | .br => verifyBr s iidx instr.operands
  | .condBr => verifyCondBr s iidx instr.operands
  | .switch => verifySwitch s iidx instr.operands
  | .getElementPtr => verifyGetElementPtr s iidx instr.operands
  | .extractValue | .insertValue => verifyExtractInsert s iidx instr.op instr.operands
  | _ => .ok ()

def verifyInstr (defined : List Bool) (bidx : BlockIdx) (block : Block) (iidx : InstructionIdx) :
    VerifyM Unit := do
  let instr ← read s.instrs iidx
  let last : Bool := iidx + 1 = block.instrs.head + block.instrs.size
  reject (isTerminator instr.op ≠ last ∧ last) .unterminatedBlock bidx
  reject (isTerminator instr.op ≠ last) .misplacedTerminator iidx
  reject (¬ rangeInBounds instr.operands s.operands.length) .instrOperandsOutOfRange iidx
  instr.operands.toList.forM (verifyOperand s defined)
  verifyShape s iidx instr

def verifyBlock (defined : List Bool) (bidx : BlockIdx) : VerifyM Unit := do
  let block ← read s.blocks bidx
  reject (block.instrs.isEmpty) .unterminatedBlock bidx
  block.instrs.toList.forM (verifyInstr s defined bidx block)

/-- `verify_storage`. -/
def verifyStorage : VerifyM Unit := do
  (List.range s.types.length).forM (verifyType s)
  (List.range s.registers.length).forM (verifyRegister s)
  (List.range s.immutables.length).forM (verifyImmutable s)
  (List.range s.functions.length).forM (verifyFunction s)
  let defined ← (List.range s.blocks.length).foldlM (defineBlock s)
    (List.replicate s.registers.length false)
  (List.range s.blocks.length).forM (verifyBlock s defined)
  (List.range s.functions.length).forM fun fidx => do
    let func ← read s.functions fidx
    reject (func.blocks.isEmpty) .unterminatedBlock fidx

end

end Alcy.Ir
