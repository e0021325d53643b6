import Mathlib.Data.List.Basic

/-! # The intermediate representation

The tables of `ir::Storage`. An index (`base::Idx`) is a position of its table, `base::Vec` is a
list, and a range (`base::IdxRange`) is the run of positions from its head. The invalid index, by
which an instruction says that its result is dropped, is `none`.
-/
namespace Alcy.Ir

abbrev FunctionIdx := Nat
abbrev BlockIdx := Nat
abbrev BlockParamIdx := Nat
abbrev ImmutableIdx := Nat
abbrev RegisterIdx := Nat
abbrev InstructionIdx := Nat
abbrev ExternalFunctionIdx := Nat
abbrev OperandIdx := Nat
abbrev TypeIdx := Nat
abbrev StructTypeIdx := Nat
abbrev ArrayTypeIdx := Nat
abbrev EnumTypeIdx := Nat
abbrev EnumVariantTypeIdx := Nat
abbrev RefTypeIdx := Nat
abbrev TupleTypeIdx := Nat
/-- An interned string. -/
abbrev StringPoolId := Nat

/-- `base::IdxRange`. -/
structure IdxRange where
  head : Nat
  size : Nat
  deriving DecidableEq

namespace IdxRange

/-- The positions a loop over the range visits, in its order. -/
def toList (r : IdxRange) : List Nat := List.range' r.head r.size

def isEmpty (r : IdxRange) : Bool := r.size == 0

@[simp] theorem mem_toList {r : IdxRange} {i : Nat} :
    i ∈ r.toList ↔ r.head ≤ i ∧ i < r.head + r.size := by
  simp [toList, List.mem_range'_1]

end IdxRange

/-! ## Types -/

inductive TypeTag where
  | void | i1 | i8 | i16 | i32 | i64 | u8 | u16 | u32 | u64 | f32 | f64 | str | ptr | ref | mutRef
  | struct | array | function | enum | never | tuple | error
  deriving DecidableEq

/-- The place of the tag in the source's enumeration. -/
def TypeTag.toNat : TypeTag → Nat
  | .void => 0 | .i1 => 1 | .i8 => 2 | .i16 => 3 | .i32 => 4 | .i64 => 5
  | .u8 => 6 | .u16 => 7 | .u32 => 8 | .u64 => 9 | .f32 => 10 | .f64 => 11
  | .str => 12 | .ptr => 13 | .ref => 14 | .mutRef => 15
  | .struct => 16 | .array => 17 | .function => 18 | .enum => 19 | .never => 20 | .tuple => 21
  | .error => 22

def kPrimitiveTypeCount : Nat := TypeTag.struct.toNat

def primitiveIdx (tag : TypeTag) : TypeIdx :=
  if tag = .function then kPrimitiveTypeCount else tag.toNat

structure StructType where
  name : StringPoolId
  fields : IdxRange
  deriving DecidableEq

structure ArrayType where
  element : TypeIdx
  count : Nat
  deriving DecidableEq

structure EnumVariantType where
  name : StringPoolId
  fields : IdxRange
  deriving DecidableEq

structure EnumType where
  name : StringPoolId
  variants : IdxRange
  deriving DecidableEq

structure RefType where
  pointee : TypeIdx
  deriving DecidableEq

structure TupleType where
  elements : IdxRange
  deriving DecidableEq

/-- A type table entry. `data` is the index of the metadata, read under the tag only. -/
structure TypeNode where
  tag : TypeTag
  data : Nat
  deriving DecidableEq

/-- The entries that `StorageBuilder` begins with: the primitive tags in order, then `Function`. -/
def internPrimitives : List TypeNode :=
  [.void, .i1, .i8, .i16, .i32, .i64, .u8, .u16, .u32, .u64, .f32, .f64, .str, .ptr, .ref, .mutRef,
    .function].map fun tag => ⟨tag, 0⟩

/-- The index of a primitive is its place in the table. -/
theorem internPrimitives_primitiveIdx :
    ∀ node ∈ internPrimitives, internPrimitives[primitiveIdx node.tag]? = some node := by
  decide

namespace TypeNode

def asStruct (n : TypeNode) : Option StructTypeIdx := if n.tag = .struct then some n.data else none
def asArray (n : TypeNode) : Option ArrayTypeIdx := if n.tag = .array then some n.data else none
def asEnum (n : TypeNode) : Option EnumTypeIdx := if n.tag = .enum then some n.data else none
def asRef (n : TypeNode) : Option RefTypeIdx :=
  if n.tag = .ref ∨ n.tag = .mutRef then some n.data else none
def asTuple (n : TypeNode) : Option TupleTypeIdx := if n.tag = .tuple then some n.data else none

end TypeNode

def isIntegerType : TypeTag → Bool
  | .i1 | .i8 | .i16 | .i32 | .i64 | .u8 | .u16 | .u32 | .u64 => true
  | _ => false

def isSignedIntegerType : TypeTag → Bool
  | .i8 | .i16 | .i32 | .i64 => true
  | _ => false

def isFloatType : TypeTag → Bool
  | .f32 | .f64 => true
  | _ => false

/-! ## Values and instructions -/

inductive OperandData where
  | register (idx : RegisterIdx)
  | function (idx : FunctionIdx)
  | block (idx : BlockIdx)
  | immutable (idx : ImmutableIdx)
  | externalFunction (idx : ExternalFunctionIdx)
  | void
  deriving DecidableEq

structure Operand where
  data : OperandData
  type : TypeIdx
  deriving DecidableEq

namespace Operand

def asRegister (o : Operand) : Option RegisterIdx :=
  match o.data with
  | .register idx => some idx
  | _ => none

def asBlock (o : Operand) : Option BlockIdx :=
  match o.data with
  | .block idx => some idx
  | _ => none

def asImmutable (o : Operand) : Option ImmutableIdx :=
  match o.data with
  | .immutable idx => some idx
  | _ => none

end Operand

/-- An immediate. `data` is the union's eight bytes. -/
structure Immutable where
  type : TypeIdx
  data : BitVec 64
  deriving DecidableEq

/-- `as_u64_integer`: the value of the union's member for the tag, as 64 bits. -/
def Immutable.asU64Integer (i : Immutable) : TypeTag → Option (BitVec 64)
  | .i1 => some ((i.data.setWidth 1).setWidth 64)
  | .i8 => some ((i.data.setWidth 8).signExtend 64)
  | .i16 => some ((i.data.setWidth 16).signExtend 64)
  | .i32 => some ((i.data.setWidth 32).signExtend 64)
  | .i64 | .u64 => some i.data
  | .u8 => some ((i.data.setWidth 8).setWidth 64)
  | .u16 => some ((i.data.setWidth 16).setWidth 64)
  | .u32 => some ((i.data.setWidth 32).setWidth 64)
  | _ => none

structure Register where
  type : TypeIdx
  deriving DecidableEq

structure BlockParam where
  type : TypeIdx
  reg : RegisterIdx
  deriving DecidableEq

inductive Opcode where
  | noop
  | alloca | load | store | getElementPtr | extractValue | insertValue
  | intAdd | intSub | intMul | intDiv | uintDiv | intRem | uintRem
  | and | or | xor | shiftLeft | arithmeticShiftRight | logicalShiftRight | not | bitReverse
  | eq | ne | le | lt | ge | gt
  | typeCast
  | select
  | br | condBr | switch | call | ret | unreachable
  | atomicLoad | atomicStore | atomicRmw | atomicCompareExchange | fence
  | move | drop
  deriving DecidableEq

inductive AtomicRmwOp where
  | add | sub | and | or | xor | exchange
  deriving DecidableEq

structure Instruction where
  op : Opcode
  rmwOp : AtomicRmwOp
  dst : Option RegisterIdx
  operands : IdxRange
  deriving DecidableEq

structure Block where
  instrs : IdxRange
  blockParams : IdxRange
  deriving DecidableEq

structure FunctionMeta where
  returnType : TypeIdx
  paramTypes : IdxRange
  name : StringPoolId
  deriving DecidableEq

structure Function where
  functionMeta : FunctionMeta
  blocks : IdxRange
  deriving DecidableEq

structure ExternalFunction where
  functionMeta : FunctionMeta
  deriving DecidableEq

/-- `StorageState`: the tables that ranges and indexes point into. -/
structure Storage where
  functions : List Function
  blocks : List Block
  blockParams : List BlockParam
  instrs : List Instruction
  immutables : List Immutable
  registers : List Register
  externalFunctions : List ExternalFunction
  operands : List Operand
  types : List TypeNode
  structTypes : List StructType
  arrayTypes : List ArrayType
  enumTypes : List EnumType
  enumVariantTypes : List EnumVariantType
  refTypes : List RefType
  tupleTypes : List TupleType
  deriving DecidableEq

end Alcy.Ir
