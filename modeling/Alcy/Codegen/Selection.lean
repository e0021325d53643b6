import Alcy.Codegen.Guarded
import Alcy.Lib.Stages
import Alcy.Ir.Semantics

/-! # The module that the emitter makes

Which LLVM instruction the emitter asks the builder for, and the module that a run of the emitter
leaves: what it built, where it stood when it built it. A run is read step by step, each step with
the maps it found. A request with a null operand makes no instruction.
-/
namespace Alcy.Codegen

open Alcy.Ir Alcy.Lib Alcy.Lib.Traced Alcy.Lib.Llvm

abbrev LlvmInstr := Instr LlvmType Value BlockIdx FunctionIdx ExternalFunctionIdx

abbrev LlvmModule := Module LlvmType Value BlockIdx FunctionIdx ExternalFunctionIdx

/-! ## Opcodes -/

def binaryOp : Opcode → Option BinaryOp
  | .intAdd => some .add
  | .intSub => some .sub
  | .intMul => some .mul
  | .intDiv => some .sdiv
  | .uintDiv => some .udiv
  | .intRem => some .srem
  | .uintRem => some .urem
  | .and => some .and
  | .or => some .or
  | .xor => some .xor
  | .shiftLeft => some .shl
  | .arithmeticShiftRight => some .ashr
  | .logicalShiftRight => some .lshr
  | _ => none

def intPredicate (op : Opcode) (isSigned : Bool) : Option IntPredicate :=
  match op with
  | .eq => some .eq
  | .ne => some .ne
  | .lt => some (if isSigned then .slt else .ult)
  | .le => some (if isSigned then .sle else .ule)
  | .gt => some (if isSigned then .sgt else .ugt)
  | .ge => some (if isSigned then .sge else .uge)
  | _ => none

def floatPredicate : Opcode → Option FloatPredicate
  | .eq => some .oeq
  | .ne => some .one
  | .lt => some .olt
  | .le => some .ole
  | .gt => some .ogt
  | .ge => some .oge
  | _ => none

/-- The comparison of two operands of a type with the tag. -/
def comparisonOp (op : Opcode) (tag : TypeTag) : Option (Op LlvmType) :=
  if isIntegerType tag then (intPredicate op (isSignedIntegerType tag)).map .icmp
  else if isFloatType tag then (floatPredicate op).map .fcmp
  else if tag = .ptr ∧ (op = .eq ∨ op = .ne) then (intPredicate op false).map .icmp
  else none

/-- The cast between types with different tags. -/
def castOp (src dst : TypeTag) (type : LlvmType) : Option (Op LlvmType) :=
  if isIntegerType src ∧ isIntegerType dst then some (.intCast type (isSignedIntegerType src))
  else if isIntegerType src ∧ isFloatType dst then
    some (.intToFloat type (isSignedIntegerType src))
  else if isFloatType src ∧ isIntegerType dst then
    some (.floatToInt type (isSignedIntegerType dst))
  else if isFloatType src ∧ isFloatType dst then some (.floatCast type)
  else if isIntegerType src ∧ dst = .ptr then some (.intToPtr type)
  else if src = .ptr ∧ isIntegerType dst then some (.ptrToInt type)
  else none

section
variable (s : Storage)

/-- The result of `type`. -/
def layout (idx : TypeIdx) : Option LlvmType := lowerType s (s.types.length + 1) idx

/-- The type of the destination register. -/
def dstLayout (i : Instruction) : Option LlvmType := do
  let reg ← s.registers[← i.dst]?
  layout s reg.type

/-- The instruction that a computing or memory instruction becomes. The element type of
`GetElementPtr` is in the maps, where the emission of the `Alloca` left it. -/
def selectOp (st : LlvmIrStorage) (i : Instruction) (indices : List (BitVec 32)) :
    Option (Op LlvmType) :=
  match i.op with
  | .intAdd | .intSub | .intMul | .intDiv | .uintDiv | .intRem | .uintRem
  | .and | .or | .xor | .shiftLeft | .arithmeticShiftRight | .logicalShiftRight =>
    (binaryOp i.op).map .binary
  | .not => some .not
  | .bitReverse => some .bitReverse
  | .eq | .ne | .le | .lt | .ge | .gt => do
    let lhs ← s.operands[i.operands.head]?
    comparisonOp i.op (← tagOf s lhs.type)
  | .typeCast => do
    let src ← s.operands[i.operands.head]?
    let reg ← s.registers[← i.dst]?
    castOp (← tagOf s src.type) (← tagOf s reg.type) (← layout s reg.type)
  | .select => some .select
  | .alloca => (dstLayout s i).map .alloca
  | .load => (dstLayout s i).map fun type => .load type false
  | .atomicLoad => (dstLayout s i).map fun type => .load type true
  | .store => some (.store false)
  | .atomicStore => some (.store true)
  | .atomicRmw => some (.atomicRmw (rmwOp i.rmwOp))
  | .atomicCompareExchange => some .cmpXchg
  | .fence => some .fence
  | .getElementPtr => do
    let base ← s.operands[i.operands.head]?
    let type ← st.allocaTypes[← base.asRegister]?
    type.map .getElementPtr
  | .extractValue => some (.extractValue (indices.map BitVec.toNat))
  | .insertValue => some (.insertValue (indices.map BitVec.toNat))
  | _ => none

def asLabel : Value → Option BlockIdx
  | .block b => some b
  | _ => none

/-- The cases of a switch, value and target by turns. -/
def readCases : List Value → Option (List (Value × BlockIdx))
  | [] => some []
  | v :: target :: rest => do
    let b ← asLabel target
    let cases ← readCases rest
    some ((v, b) :: cases)
  | [_] => none

/-- The instruction made by a request to the builder. -/
def llvmInstr (st : LlvmIrStorage) (iidx : InstructionIdx) (i : Instruction)
    (operands : List Value) (indices : List (BitVec 32)) : Option LlvmInstr :=
  match i.op, operands with
  | .br, [target] => (asLabel target).map .br
  | .condBr, [cond, whenTrue, whenFalse] => do
    some (.condBr cond (← asLabel whenTrue) (← asLabel whenFalse))
  | .switch, value :: default :: cases => do
    some (.switch value (← asLabel default) (← readCases cases))
  | .call, .function f :: args => some (.call (.instr iidx) f args)
  | .call, .externalFunction e :: args => some (.callExternal (.instr iidx) e args)
  | .ret, [] => some (.ret none)
  | .ret, [value] => some (.ret (some value))
  | .unreachable, [] => some .unreachable
  | _, operands => (selectOp s st i indices).map fun op => .op (.instr iidx) op operands

/-! ## The module -/

/-- The instruction that an event asks for, in the step that logged it. -/
def requested (step : Step) (st : LlvmIrStorage) : Event → Option LlvmInstr
  | .build iidx operands indices =>
    match step with
    | .instr .. => do
      llvmInstr s st iidx (← s.instrs[iidx]?) (← operands.mapM id) indices
    | _ => none
  | _ => none

/-- The instructions that a step appends to the block `b`. -/
def appended (b : BlockIdx) (stage : Step × LlvmIrStorage) : List LlvmInstr :=
  match stage.1 with
  | .instr _ b' _ =>
    if b' = b then (emitStep s stage.1 stage.2).log.filterMap (requested s stage.1 stage.2) else []
  | _ => []

/-- The arm that an event adds to a phi node. -/
def armFor (p : BlockParamIdx) : Event → Option (Value × BlockIdx)
  | .addIncoming (some (.phi q)) (some v) (some (.block b)) => if q = p then some (v, b) else none
  | _ => none

/-- The phi node that a step puts at the start of the block `b`. -/
def phiFor (b : BlockIdx) (stage : Step × LlvmIrStorage) : Option BlockParamIdx :=
  match stage.1 with
  | .phi _ b' p => if b' = b then some p else none
  | _ => none

def declaredBlock (f : FunctionIdx) (stage : Step × LlvmIrStorage) : Option BlockIdx :=
  match stage.1 with
  | .declareBlock g b => if g = f then some b else none
  | _ => none

/-- The module that the stages of a run leave. -/
def moduleOf (run : List (Step × LlvmIrStorage)) : LlvmModule where
  entry f := run.findSome? (declaredBlock f)
  block b :=
    { phis := (run.filterMap (phiFor b)).map fun p =>
        (.phi p, run.flatMap fun stage =>
          (emitStep s stage.1 stage.2).log.filterMap (armFor p))
      instrs := run.flatMap (appended s b) }

/-- The steps of the emission that ran, each with the maps it found. -/
def emission : List (Step × LlvmIrStorage) :=
  (setup s (sized s)).result.elim [] fun r => stages (emitStep s) (emissionOrder s) r.2

/-- The module that the emission leaves. -/
def emittedModule : LlvmModule := moduleOf s (emission s)

/-- The constant made for an immediate. -/
def constantAt (idx : ImmutableIdx) : Event → Option Constant
  | .addImmutable k c => if k = idx then some c else none
  | _ => none

/-- What the emitted module runs on: LLVM, as the emitter uses it. -/
structure Llvm (F P ω : Type) where
  floats : Floats F LlvmType
  string : BitVec 64 → P
  exec : Exec LlvmType F P ω
  external : ExternalFunctionIdx → List (Val F P) → ω → Option (Option (Val F P) × ω)
  constant : Constant → Option (Val F P)

/-- The language reference on constants and instructions. -/
structure Llvm.Documented {F P ω : Type} [DecidableEq P] (l : Llvm F P ω) : Prop where
  exec : Lib.Llvm.Documented l.floats LlvmType.int l.exec
  constantInt : ∀ n value isSigned,
    l.constant (.int (.int n) value isSigned) = some (.int n (value.setWidth n))
  constantFp : ∀ type data, l.constant (.fp type data) = some (.float (l.floats.literal type data))
  constantStr : ∀ id, l.constant (.str id) = some (.ptr (l.string id))

variable {F P ω : Type}

/-- The platform that the storage itself runs on: the same memory, the same functions from
outside. -/
def platform (l : Llvm F P ω) : Platform LlvmType F P ω where
  layout := layout s
  floats := l.floats
  string := l.string
  memory := l.exec
  external := l.external

/-- The value of a constant that the set-up made. -/
def constantValue (l : Llvm F P ω) : Value → Option (Val F P)
  | .immutable idx => ((setup s (sized s)).log.findSome? (constantAt idx)).bind l.constant
  | _ => none

def host (l : Llvm F P ω) : Host LlvmType Value ExternalFunctionIdx F P ω where
  exec := l.exec
  constant := constantValue s l
  external := l.external

/-- The machine of the emitted module. -/
def emittedMachine (l : Llvm F P ω) :=
  Lib.Llvm.machine (host s l) (emittedModule s)

/-- The machine of the storage, on what the module runs on. -/
def sourceMachine [DecidableEq P] (l : Llvm F P ω) := Ir.machine s (platform s l)

end

end Alcy.Codegen
