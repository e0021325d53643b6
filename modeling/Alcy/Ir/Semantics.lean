import Alcy.Ir.Storage
import Alcy.Lib.Llvm
import Mathlib.Algebra.Group.Int.Defs
import Mathlib.Algebra.Group.Nat.Defs

/-! # What the intermediate representation means

The machine that runs a storage, after the opcode conventions of the construction guide. Integer
arithmetic is arithmetic on the numbers that the bits stand for, comparisons and casts read those
numbers by the sign of the operand's type. Memory, pointers, floating point numbers and the
functions from outside belong to the platform. What the guide leaves open, such as a division by
zero, has no meaning here. Neither has an instruction with too few operands, or an operand that has
no value.
-/
namespace Alcy.Ir

open Lib.Blocks Lib.Llvm

/-- The bits of an integer type. -/
def width : TypeTag → Nat
  | .i1 => 1
  | .i8 | .u8 => 8
  | .i16 | .u16 => 16
  | .i32 | .u32 => 32
  | .i64 | .u64 => 64
  | _ => 0

/-- The number that an integer of the type stands for. -/
def number (tag : TypeTag) {n : Nat} (x : BitVec n) : Int := readInt (isSignedIntegerType tag) x

/-- What a storage runs on. Types of memory are laid out as the types `τ`. -/
structure Platform (τ F P ω : Type) where
  layout : TypeIdx → Option τ
  floats : Floats F τ
  string : BitVec 64 → P
  memory : Exec τ F P ω
  external : ExternalFunctionIdx → List (Val F P) → ω → Option (Option (Val F P) × ω)

/-- The registers of an activation, and the world. -/
structure Frame (F P ω : Type) where
  regs : RegisterIdx → Option (Val F P)
  world : ω

variable {τ F P ω : Type}

/-! ## Computing -/

/-- Arithmetic of the opcode on integers of one width. -/
def arithmetic (op : Opcode) {n : Nat} (x y : BitVec n) : Option (BitVec n) :=
  match op with
  | .intAdd => some (.ofInt n (x.toInt + y.toInt))
  | .intSub => some (.ofInt n (x.toInt - y.toInt))
  | .intMul => some (.ofInt n (x.toInt * y.toInt))
  | .intDiv =>
    if y.toInt ≠ 0 ∧ FitsInt true n (x.toInt.tdiv y.toInt) then
      some (.ofInt n (x.toInt.tdiv y.toInt))
    else none
  | .uintDiv => if y.toNat ≠ 0 then some (.ofNat n (x.toNat / y.toNat)) else none
  | .intRem =>
    if y.toInt ≠ 0 ∧ FitsInt true n (x.toInt.tdiv y.toInt) then
      some (.ofInt n (x.toInt.tmod y.toInt))
    else none
  | .uintRem => if y.toNat ≠ 0 then some (.ofNat n (x.toNat % y.toNat)) else none
  | .and => some (x &&& y)
  | .or => some (x ||| y)
  | .xor => some (x ^^^ y)
  | .shiftLeft => if y.toNat < n then some (.ofInt n (x.toInt * 2 ^ y.toNat)) else none
  | .arithmeticShiftRight =>
    if y.toNat < n then some (.ofInt n (x.toInt / 2 ^ y.toNat)) else none
  | .logicalShiftRight => if y.toNat < n then some (.ofNat n (x.toNat / 2 ^ y.toNat)) else none
  | _ => none

/-- What a comparison says of two values in an order. -/
def compares (op : Opcode) (order : Ordering) : Bool :=
  match op with
  | .eq => order == .eq
  | .ne => order != .eq
  | .lt => order == .lt
  | .le => order != .gt
  | .gt => order == .gt
  | .ge => order != .lt
  | _ => false

def bool (b : Bool) : Val F P := .int 1 (.ofBool b)

section
variable [DecidableEq P] (floats : Floats F τ)

/-- A comparison of two values of a type with the tag. Floating point numbers without an order
satisfy none, pointers are the same or not. -/
def comparison (op : Opcode) (tag : TypeTag) : Val F P → Val F P → Option (Val F P)
  | .int n x, .int m y =>
    if n = m ∧ isIntegerType tag then
      some (bool (compares op (compare (number tag x) (number tag y))))
    else none
  | .float x, .float y =>
    if isFloatType tag then some (bool ((floats.compare x y).any (compares op))) else none
  | .ptr p, .ptr q =>
    if tag = .ptr ∧ op = .eq then some (bool (p = q))
    else if tag = .ptr ∧ op = .ne then some (bool (p ≠ q))
    else none
  | _, _ => none

end

/-- A cast between types with the tags `src` and `dst`, the second one laid out as `type`. -/
def cast (floats : Floats F τ) (memory : Exec τ F P ω) (src dst : TypeTag) (type : τ)
    (v : Val F P) (world : ω) : Option (Option (Val F P) × ω) :=
  if src = dst then some (some v, world)
  else match v with
  | .int n x =>
    if isIntegerType src ∧ isIntegerType dst then
      some (some (.int (width dst) (.ofInt _ (number src x))), world)
    else if isIntegerType src ∧ isFloatType dst then
      some (some (.float (floats.ofInt type (number src x))), world)
    else if isIntegerType src ∧ dst = .ptr then memory (.intToPtr type) [.int n x] world
    else none
  | .float x =>
    if isFloatType src ∧ isIntegerType dst then do
      let k ← floats.toInt x
      if FitsInt (isSignedIntegerType dst) (width dst) k then
        some (some (.int (width dst) (.ofInt _ k)), world)
      else none
    else if isFloatType src ∧ isFloatType dst then
      some (some (.float (floats.cast type x)), world)
    else none
  | .ptr p =>
    if src = .ptr ∧ isIntegerType dst then memory (.ptrToInt type) [.ptr p] world else none
  | .aggregate _ => none

def rmwOp : AtomicRmwOp → RmwOp
  | .add => .add
  | .sub => .sub
  | .and => .and
  | .or => .or
  | .xor => .xor
  | .exchange => .xchg

/-- Instructions of which nothing is left when their result is discarded. -/
def discardable (op : Opcode) : Bool :=
  op ∈ [.intAdd, .intSub, .intMul, .intDiv, .uintDiv, .intRem, .uintRem, .and, .or, .xor,
    .shiftLeft, .arithmeticShiftRight, .logicalShiftRight, .not, .bitReverse, .typeCast, .select,
    .move, .alloca, .load, .atomicLoad, .extractValue, .insertValue]

section
variable (s : Storage)

/-- An operand of the instruction, by its place. -/
def operand (i : Instruction) (k : Nat) : Option Operand :=
  if k < i.operands.size then s.operands[i.operands.head + k]? else none

def tagOf (idx : TypeIdx) : Option TypeTag := (s.types[idx]?).map TypeNode.tag

def targetAt (i : Instruction) (k : Nat) : Option BlockIdx := (operand s i k).bind Operand.asBlock

/-- An index into an aggregate, an immediate of 32 bits. -/
def indexAt (i : Instruction) (k : Nat) : Option Nat := do
  let o ← operand s i k
  let imm ← s.immutables[← o.asImmutable]?
  let value ← imm.asU64Integer (← tagOf s imm.type)
  if value.toNat < 2 ^ 32 then some value.toNat else none

/-- The places of the operands from the `k`-th on. -/
def Instruction.placesFrom (i : Instruction) (k : Nat) : List Nat :=
  List.range' k (i.operands.size - k)

/-- The places of the values of a switch's cases. -/
def Instruction.casePlaces (i : Instruction) : List Nat :=
  List.range' 2 ((i.operands.size - 2) / 2) 2

variable (pl : Platform τ F P ω)

def immediate (idx : ImmutableIdx) : Option (Val F P) := do
  let imm ← s.immutables[idx]?
  let tag ← tagOf s imm.type
  if isIntegerType tag then some (.int (width tag) (imm.data.setWidth _))
  else if isFloatType tag then do
    let type ← pl.layout imm.type
    some (.float (pl.floats.literal type imm.data))
  else if tag = .str then some (.ptr (pl.string imm.data))
  else none

def value (fr : Frame F P ω) (o : Operand) : Option (Val F P) :=
  match o.data with
  | .register r => fr.regs r
  | .immutable idx => immediate s pl idx
  | _ => none

def arg (fr : Frame F P ω) (i : Instruction) (k : Nat) : Option (Val F P) :=
  (operand s i k).bind (value s pl fr)

/-- The type that the result of the instruction is laid out as. -/
def resultType (i : Instruction) : Option τ := do
  let reg ← s.registers[← i.dst]?
  pl.layout reg.type

/-- An instruction of some block allocates the pointer in the register. -/
def isAllocated (r : RegisterIdx) : Bool :=
  s.blocks.any fun block => block.instrs.toList.any fun iidx =>
    (s.instrs[iidx]?).any fun i => i.op = .alloca ∧ i.dst = some r

/-- The element type of a pointer: the type of its register, if an allocation defines that. -/
def elementType (r : RegisterIdx) : Option τ :=
  if isAllocated s r then do
    let reg ← s.registers[r]?
    pl.layout reg.type
  else none

variable [DecidableEq P]

/-- What an instruction computes that neither calls nor ends its block. -/
def compute (fr : Frame F P ω) (i : Instruction) : Option (Option (Val F P) × ω) :=
  let arg := arg s pl fr i
  match i.op with
  | .intAdd | .intSub | .intMul | .intDiv | .uintDiv | .intRem | .uintRem
  | .and | .or | .xor | .shiftLeft | .arithmeticShiftRight | .logicalShiftRight => do
    match ← arg 0, ← arg 1 with
    | .int n x, .int m y =>
      if h : m = n then do
        let z ← arithmetic i.op x (y.cast h)
        some (some (.int n z), fr.world)
      else none
    | _, _ => none
  | .not => do
    match ← arg 0 with
    | .int n x => some (some (.int n (~~~x)), fr.world)
    | _ => none
  | .bitReverse => do
    match ← arg 0 with
    | .int n x => some (some (.int n x.reverse), fr.world)
    | _ => none
  | .eq | .ne | .le | .lt | .ge | .gt => do
    let tag ← tagOf s (← operand s i 0).type
    let result ← comparison pl.floats i.op tag (← arg 0) (← arg 1)
    some (some result, fr.world)
  | .typeCast => do
    let src ← tagOf s (← operand s i 0).type
    let reg ← s.registers[← i.dst]?
    let dst ← tagOf s reg.type
    cast pl.floats pl.memory src dst (← pl.layout reg.type) (← arg 0) fr.world
  | .select => do
    match ← arg 0, ← arg 1, ← arg 2 with
    | .int 1 c, a, b => some (some (if c = 1 then a else b), fr.world)
    | _, _, _ => none
  | .move => do some (some (← arg 0), fr.world)
  | .alloca => do pl.memory (.alloca (← resultType s pl i)) [← arg 0] fr.world
  | .load => do pl.memory (.load (← resultType s pl i) false) [← arg 0] fr.world
  | .atomicLoad => do pl.memory (.load (← resultType s pl i) true) [← arg 0] fr.world
  | .store => do pl.memory (.store false) [← arg 0, ← arg 1] fr.world
  | .atomicStore => do pl.memory (.store true) [← arg 0, ← arg 1] fr.world
  | .atomicRmw => do pl.memory (.atomicRmw (rmwOp i.rmwOp)) [← arg 0, ← arg 1] fr.world
  | .atomicCompareExchange => do pl.memory .cmpXchg [← arg 0, ← arg 1, ← arg 2] fr.world
  | .fence => pl.memory .fence [] fr.world
  | .getElementPtr => do
    let base ← (← operand s i 0).asRegister
    let type ← elementType s pl base
    let first ← arg 0
    let indices ← (i.placesFrom 1).mapM arg
    pl.memory (.getElementPtr type) (first :: indices) fr.world
  | .extractValue => do
    let path ← (i.placesFrom 1).mapM (indexAt s i)
    let part ← Val.extract path (← arg 0)
    some (some part, fr.world)
  | .insertValue => do
    let path ← (i.placesFrom 2).mapM (indexAt s i)
    let result ← Val.insert (← arg 1) path (← arg 0)
    some (some result, fr.world)
  | _ => none

/-! ## Control -/

/-- The registers of the parameters of a block hold the arguments, all others what they held. -/
def bindParams (regs : RegisterIdx → Option (Val F P)) (params : List BlockParamIdx)
    (args : List (Val F P)) (r : RegisterIdx) : Option (Val F P) :=
  match (params.zip args).find? fun x => (s.blockParams[x.1]?).map BlockParam.reg = some r with
  | some x => some x.2
  | none => regs r

abbrev Step (F P ω : Type) := Effect FunctionIdx BlockIdx (Val F P) ω (Frame F P ω)

/-- Control goes to a block that has as many parameters as there are arguments. -/
def enter (fr : Frame F P ω) (target : BlockIdx) (args : List (Val F P)) : Step F P ω :=
  match s.blocks[target]? with
  | some block =>
    if block.blockParams.size = args.length then
      .goto target { fr with regs := bindParams s fr.regs block.blockParams.toList args }
    else .undefined
  | none => .undefined

/-- The value and the target of a case. -/
def caseAt (fr : Frame F P ω) (i : Instruction) (k : Nat) : Option (Val F P × BlockIdx) := do
  some (← arg s pl fr i k, ← targetAt s i (k + 1))

/-- A call, of a function of the storage or of one from outside. -/
def callStep (fr : Frame F P ω) (i : Instruction) (callee : Operand) (args : List (Val F P)) :
    Step F P ω :=
  let resume (result : Option (Val F P)) (world : ω) : Frame F P ω :=
    ⟨i.dst.elim fr.regs fun dst => Function.update fr.regs dst result, world⟩
  match callee.data with
  | .function f => .call f args fr.world resume
  | .externalFunction e =>
    match pl.external e args fr.world with
    | some (result, world) => .next (resume result world)
    | none => .undefined
  | _ => .undefined

/-- The effect of the operands that are there. -/
def orUndefined {α : Type} (data : Option α) (k : α → Step F P ω) : Step F P ω :=
  match data with
  | some a => k a
  | none => .undefined

def stepInstr (fr : Frame F P ω) (i : Instruction) : Step F P ω :=
  match i.op with
  | .noop | .drop => .next fr
  | .br => orUndefined (targetAt s i 0) fun target =>
    orUndefined ((i.placesFrom 1).mapM (arg s pl fr i)) (enter s fr target)
  | .condBr => orUndefined (arg s pl fr i 0) fun cond => orUndefined (targetAt s i 1) fun whenTrue =>
    orUndefined (targetAt s i 2) fun whenFalse =>
      match cond with
      | .int 1 c => enter s fr (if c = 1 then whenTrue else whenFalse) []
      | _ => .undefined
  | .switch => orUndefined (arg s pl fr i 0) fun x => orUndefined (targetAt s i 1) fun default =>
    orUndefined (i.casePlaces.mapM (caseAt s pl fr i)) fun cases =>
      match x with
      | .int _ x => enter s fr ((cases.find? fun c => c.1.isInt x).elim default Prod.snd) []
      | _ => .undefined
  | .call => orUndefined (operand s i 0) fun callee =>
    orUndefined ((i.placesFrom 1).mapM (arg s pl fr i)) (callStep pl fr i callee)
  | .ret =>
    if i.operands.isEmpty then .ret none fr.world
    else orUndefined (arg s pl fr i 0) fun v => .ret (some v) fr.world
  | .unreachable => .undefined
  | _ =>
    if discardable i.op ∧ i.dst = none then .next fr
    else orUndefined (compute s pl fr i) fun result =>
      .next ⟨i.dst.elim fr.regs fun dst => Function.update fr.regs dst result.1, result.2⟩

/-- The machine of a storage. A call binds its arguments to the parameters of the first block. -/
def machine : Machine FunctionIdx BlockIdx InstructionIdx (Val F P) ω (Frame F P ω) where
  entry f args world := do
    let func ← s.functions[f]?
    let b ← func.blocks.toList.head?
    let block ← s.blocks[b]?
    some (b, ⟨bindParams s (fun _ => none) block.blockParams.toList args, world⟩)
  body b := (s.blocks[b]?).elim [] fun block => block.instrs.toList
  step iidx fr := orUndefined (s.instrs[iidx]?) (stepInstr s pl fr)

end

end Alcy.Ir
