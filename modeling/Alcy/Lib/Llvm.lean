import Alcy.Lib.Blocks
import Mathlib.Data.List.Basic
import Mathlib.Data.Nat.Init

/-! # LLVM programs

The instructions of LLVM over any names of types, values, blocks and functions, and the machine that
runs a module of them. What an instruction computes is given by LLVM: `exec` is a parameter, and
`Documented` is what the language reference says of the instructions on integers, floating point
numbers, pointers and aggregates. Memory is opaque. A result that is poison counts as undefined.
-/
namespace Alcy.Lib.Llvm

open Blocks

/-- Values at run time: integers of some width, floating point numbers, pointers, aggregates. -/
inductive Val (F P : Type) where
  | int (bits : Nat) (value : BitVec bits)
  | float (x : F)
  | ptr (p : P)
  | aggregate (fields : List (Val F P))

/-! ## Instructions -/

inductive BinaryOp where
  | add | sub | mul | sdiv | udiv | srem | urem | and | or | xor | shl | ashr | lshr
  deriving DecidableEq

inductive IntPredicate where
  | eq | ne | slt | ult | sle | ule | sgt | ugt | sge | uge
  deriving DecidableEq

/-- The ordered predicates. -/
inductive FloatPredicate where
  | oeq | one | olt | ole | ogt | oge
  deriving DecidableEq

inductive RmwOp where
  | add | sub | and | or | xor | xchg
  deriving DecidableEq

/-- Instructions that compute or touch memory, over types `τ`. -/
inductive Op (τ : Type) where
  | binary (op : BinaryOp)
  | not
  | bitReverse
  | icmp (pred : IntPredicate)
  | fcmp (pred : FloatPredicate)
  /-- `trunc` to a smaller width, else `sext` or `zext`. The type of an integer is its width, so
  the choice that is made on types is made here on the integer. -/
  | intCast (type : τ) (isSigned : Bool)
  | intToFloat (type : τ) (isSigned : Bool)
  | floatToInt (type : τ) (isSigned : Bool)
  | floatCast (type : τ)
  | intToPtr (type : τ)
  | ptrToInt (type : τ)
  | select
  | alloca (type : τ)
  | load (type : τ) (isAtomic : Bool)
  | store (isAtomic : Bool)
  | getElementPtr (type : τ)
  | extractValue (indices : List Nat)
  | insertValue (indices : List Nat)
  | atomicRmw (op : RmwOp)
  | cmpXchg
  | fence

/-- Instructions over values `ν`, blocks `β`, functions `φ` and external functions `ε`. -/
inductive Instr (τ ν β φ ε : Type) where
  | op (result : ν) (op : Op τ) (operands : List ν)
  | call (result : ν) (callee : φ) (args : List ν)
  | callExternal (result : ν) (callee : ε) (args : List ν)
  | br (target : β)
  | condBr (cond : ν) (whenTrue whenFalse : β)
  | switch (value : ν) (default : β) (cases : List (ν × β))
  | ret (value : Option ν)
  | unreachable

/-- A basic block. A phi node lists a value for each block that control may come from. -/
structure Block (τ ν β φ ε : Type) where
  phis : List (ν × List (ν × β))
  instrs : List (Instr τ ν β φ ε)

structure Module (τ ν β φ ε : Type) where
  entry : φ → Option β
  block : β → Block τ ν β φ ε

namespace Instr

variable {τ ν β φ ε : Type}

def isTerminator : Instr τ ν β φ ε → Bool
  | .br _ | .condBr .. | .switch .. | .ret _ | .unreachable => true
  | _ => false

/-- The blocks that an instruction may go to. -/
def targets : Instr τ ν β φ ε → List β
  | .br target => [target]
  | .condBr _ whenTrue whenFalse => [whenTrue, whenFalse]
  | .switch _ default cases => default :: cases.map Prod.snd
  | _ => []

end Instr

/-- **The form of a module**, for the blocks it lists: a block ends in its one terminator, goes to
listed blocks only, and its phi nodes have one arm for each block that control may come from. -/
structure Module.WellFormed {τ ν β φ ε : Type} (M : Module τ ν β φ ε) (listed : β → Prop) :
    Prop where
  terminated : ∀ b, listed b → ∃ init last, (M.block b).instrs = init ++ [last] ∧
    last.isTerminator = true ∧ ∀ i ∈ init, i.isTerminator = false
  targets : ∀ b, listed b → ∀ i ∈ (M.block b).instrs, ∀ c ∈ i.targets, listed c
  arms : ∀ b, listed b → ∀ phi ∈ (M.block b).phis, (phi.2.map Prod.snd).Nodup ∧
    ∀ c, c ∈ phi.2.map Prod.snd ↔ listed c ∧ ∃ i ∈ (M.block c).instrs, b ∈ i.targets

/-! ## What the instructions compute -/

/-- Arithmetic on integers of one width. A division by zero, a quotient that does not fit and a
shift by the width or more have no result. -/
def BinaryOp.eval {n : Nat} (op : BinaryOp) (x y : BitVec n) : Option (BitVec n) :=
  match op with
  | .add => some (x + y)
  | .sub => some (x - y)
  | .mul => some (x * y)
  | .sdiv => if y = 0 ∨ (x = .intMin n ∧ y = -1) then none else some (x.sdiv y)
  | .udiv => if y = 0 then none else some (x.udiv y)
  | .srem => if y = 0 ∨ (x = .intMin n ∧ y = -1) then none else some (x.srem y)
  | .urem => if y = 0 then none else some (x.umod y)
  | .and => some (x &&& y)
  | .or => some (x ||| y)
  | .xor => some (x ^^^ y)
  | .shl => if y.toNat < n then some (x <<< y.toNat) else none
  | .ashr => if y.toNat < n then some (x.sshiftRight y.toNat) else none
  | .lshr => if y.toNat < n then some (x >>> y.toNat) else none

def IntPredicate.eval {n : Nat} (pred : IntPredicate) (x y : BitVec n) : Bool :=
  match pred with
  | .eq => x == y
  | .ne => x != y
  | .slt => x.slt y
  | .ult => x.ult y
  | .sle => x.sle y
  | .ule => x.ule y
  | .sgt => y.slt x
  | .ugt => y.ult x
  | .sge => y.sle x
  | .uge => y.ule x

/-- An ordered comparison is false when there is no order. -/
def FloatPredicate.eval (pred : FloatPredicate) (order : Option Ordering) : Bool :=
  match pred, order with
  | _, none => false
  | .oeq, some o => o == .eq
  | .one, some o => o != .eq
  | .olt, some o => o == .lt
  | .ole, some o => o != .gt
  | .ogt, some o => o == .gt
  | .oge, some o => o != .lt

/-- Floating point numbers, with types `τ` for their formats. -/
structure Floats (F τ : Type) where
  literal : τ → BitVec 64 → F
  compare : F → F → Option Ordering
  ofInt : τ → Int → F
  /-- The number without its fraction, none for infinities and what is not a number. -/
  toInt : F → Option Int
  cast : τ → F → F

variable {τ ν β φ ε F P ω : Type}

/-- The part of an aggregate at a path of indexes. -/
def Val.extract : List Nat → Val F P → Option (Val F P)
  | [], v => some v
  | i :: path, .aggregate fields => (fields[i]?).bind (Val.extract path)
  | _ :: _, _ => none

/-- The aggregate with another part at a path of indexes. -/
def Val.insert (part : Val F P) : List Nat → Val F P → Option (Val F P)
  | [], _ => some part
  | i :: path, .aggregate fields => do
    let field ← fields[i]?
    let field ← Val.insert part path field
    some (.aggregate (fields.set i field))
  | _ :: _, _ => none

/-- What LLVM makes of an instruction, its operands and the world: a result, if it has one. -/
abbrev Exec (τ F P ω : Type) :=
  Op τ → List (Val F P) → ω → Option (Option (Val F P) × ω)

/-- A number of `n` bits, by the sign that the instruction reads it with. -/
def readInt {n : Nat} (isSigned : Bool) (x : BitVec n) : Int :=
  if isSigned then x.toInt else (x.toNat : Int)

/-- The number is one of `n` bits. -/
def FitsInt (isSigned : Bool) (n : Nat) (k : Int) : Prop := readInt isSigned (.ofInt n k) = k

instance (isSigned : Bool) (n : Nat) (k : Int) : Decidable (FitsInt isSigned n k) := by
  unfold FitsInt
  infer_instance

/-- **The language reference**, on values of integer types `intType n`. -/
structure Documented [DecidableEq P] (floats : Floats F τ) (intType : Nat → τ)
    (exec : Exec τ F P ω) : Prop where
  binary : ∀ op n (x y z : BitVec n) w, op.eval x y = some z →
    exec (.binary op) [.int n x, .int n y] w = some (some (.int n z), w)
  not : ∀ n (x : BitVec n) w, exec .not [.int n x] w = some (some (.int n (~~~x)), w)
  bitReverse : ∀ n (x : BitVec n) w,
    exec .bitReverse [.int n x] w = some (some (.int n x.reverse), w)
  icmp : ∀ pred n (x y : BitVec n) w, exec (.icmp pred) [.int n x, .int n y] w =
    some (some (.int 1 (.ofBool (pred.eval x y))), w)
  icmpEqPtr : ∀ p q w, exec (.icmp .eq) [.ptr p, .ptr q] w =
    some (some (.int 1 (.ofBool (p = q))), w)
  icmpNePtr : ∀ p q w, exec (.icmp .ne) [.ptr p, .ptr q] w =
    some (some (.int 1 (.ofBool (p ≠ q))), w)
  fcmp : ∀ pred x y w, exec (.fcmp pred) [.float x, .float y] w =
    some (some (.int 1 (.ofBool (pred.eval (floats.compare x y)))), w)
  trunc : ∀ isSigned n m (x : BitVec n) w, m < n →
    exec (.intCast (intType m) isSigned) [.int n x] w = some (some (.int m (x.setWidth m)), w)
  sext : ∀ n m (x : BitVec n) w, n ≤ m →
    exec (.intCast (intType m) true) [.int n x] w = some (some (.int m (x.signExtend m)), w)
  zext : ∀ n m (x : BitVec n) w, n ≤ m →
    exec (.intCast (intType m) false) [.int n x] w = some (some (.int m (x.setWidth m)), w)
  intToFloat : ∀ type isSigned n (x : BitVec n) w, exec (.intToFloat type isSigned) [.int n x] w =
    some (some (.float (floats.ofInt type (readInt isSigned x))), w)
  floatToInt : ∀ isSigned n x k w, floats.toInt x = some k → FitsInt isSigned n k →
    exec (.floatToInt (intType n) isSigned) [.float x] w = some (some (.int n (.ofInt n k)), w)
  floatCast : ∀ type x w,
    exec (.floatCast type) [.float x] w = some (some (.float (floats.cast type x)), w)
  select : ∀ (c : BitVec 1) a b w,
    exec .select [.int 1 c, a, b] w = some (some (if c = 1 then a else b), w)
  extractValue : ∀ path v part w, Val.extract path v = some part →
    exec (.extractValue path) [v] w = some (some part, w)
  insertValue : ∀ path v part v' w, Val.insert part path v = some v' →
    exec (.insertValue path) [v, part] w = some (some v', w)

/-- The instructions by the language reference, over types `τ` some of which are of integers of
`bits`, and a memory. -/
def exec [DecidableEq P] (floats : Floats F τ) (bits : τ → Option Nat) (memory : Exec τ F P ω) :
    Exec τ F P ω := fun op args w =>
  match op, args with
  | .binary op, [.int n x, .int m y] =>
    if h : m = n then (op.eval x (y.cast h)).map fun z => (some (.int n z), w) else none
  | .not, [.int n x] => some (some (.int n (~~~x)), w)
  | .bitReverse, [.int n x] => some (some (.int n x.reverse), w)
  | .icmp pred, [.int n x, .int m y] =>
    if h : m = n then some (some (.int 1 (.ofBool (pred.eval x (y.cast h)))), w) else none
  | .icmp .eq, [.ptr p, .ptr q] => some (some (.int 1 (.ofBool (p = q))), w)
  | .icmp .ne, [.ptr p, .ptr q] => some (some (.int 1 (.ofBool (p ≠ q))), w)
  | .fcmp pred, [.float x, .float y] =>
    some (some (.int 1 (.ofBool (pred.eval (floats.compare x y)))), w)
  | .intCast type isSigned, [.int n x] => (bits type).map fun m =>
    (some (.int m (if isSigned ∧ n ≤ m then x.signExtend m else x.setWidth m)), w)
  | .intToFloat type isSigned, [.int _ x] =>
    some (some (.float (floats.ofInt type (readInt isSigned x))), w)
  | .floatToInt type isSigned, [.float x] => do
    let n ← bits type
    let k ← floats.toInt x
    if FitsInt isSigned n k then some (some (.int n (.ofInt n k)), w) else none
  | .floatCast type, [.float x] => some (some (.float (floats.cast type x)), w)
  | .select, [.int 1 c, a, b] => some (some (if c = 1 then a else b), w)
  | .extractValue path, [v] => (Val.extract path v).map fun part => (some part, w)
  | .insertValue path, [v, part] => (Val.insert part path v).map fun v => (some v, w)
  | op, args => memory op args w

/-- The language reference can be met. -/
theorem exec_documented [DecidableEq P] (floats : Floats F τ) {bits : τ → Option Nat}
    {intType : Nat → τ} (memory : Exec τ F P ω) (hbits : ∀ n, bits (intType n) = some n) :
    Documented floats intType (exec floats bits memory) where
  binary op n x y z w h := by simp [exec, h]
  not _ _ _ := rfl
  bitReverse _ _ _ := rfl
  icmp pred n x y w := by simp [exec]
  icmpEqPtr _ _ _ := rfl
  icmpNePtr _ _ _ := rfl
  fcmp _ _ _ _ := rfl
  trunc isSigned n m x w h := by simp [exec, hbits, Nat.not_le.2 h]
  sext n m x w h := by simp [exec, hbits, h]
  zext n m x w h := by simp [exec, hbits]
  intToFloat _ _ _ _ _ := rfl
  floatToInt isSigned n x k w hk h := by simp [exec, hbits, hk, h]
  floatCast _ _ _ := rfl
  select _ _ _ _ := rfl
  extractValue path v part w h := by simp [exec, h]
  insertValue path v part v' w h := by simp [exec, h]

/-! ## The machine -/

/-- The values of an activation, the block control is in, and the world. -/
structure State (ν β F P ω : Type) where
  env : ν → Option (Val F P)
  current : β
  world : ω

/-- The value is that integer. -/
def Val.isInt {n : Nat} (x : BitVec n) : Val F P → Bool
  | .int m y => m == n && y.toNat == x.toNat
  | _ => false

/-- What a module runs on: LLVM's instructions, the constants, and the functions from outside. -/
structure Host (τ ν ε F P ω : Type) where
  exec : Exec τ F P ω
  constant : ν → Option (Val F P)
  external : ε → List (Val F P) → ω → Option (Option (Val F P) × ω)

section
variable [DecidableEq ν] [DecidableEq β] (host : Host τ ν ε F P ω) (M : Module τ ν β φ ε)

/-- The values after an instruction with a result. -/
def State.bind (st : State ν β F P ω) (result : ν) (value : Option (Val F P)) (world : ω) :
    State ν β F P ω :=
  { st with env := Function.update st.env result value, world := world }

omit [DecidableEq β] in
@[simp] theorem State.bind_env (st : State ν β F P ω) (result : ν) (value : Option (Val F P))
    (world : ω) : (st.bind result value world).env = Function.update st.env result value := rfl

/-- Phi nodes all read the values from before the branch. -/
def phiEnv (st : State ν β F P ω) (target : β) (v : ν) : Option (Val F P) :=
  match (M.block target).phis.find? fun phi => phi.1 = v with
  | some phi => (phi.2.find? fun arm => arm.2 = st.current).bind fun arm => st.env arm.1
  | none => st.env v

def branch (st : State ν β F P ω) (target : β) :
    Effect φ β (Val F P) ω (State ν β F P ω) :=
  .goto target { st with env := phiEnv M st target, current := target }

/-- The target of a switch on an integer. -/
def switchTarget (env : ν → Option (Val F P)) {n : Nat} (x : BitVec n) (default : β)
    (cases : List (ν × β)) : β :=
  (cases.find? fun case => (env case.1).any (Val.isInt x)).elim default Prod.snd

def step (i : Instr τ ν β φ ε) (st : State ν β F P ω) :
    Effect φ β (Val F P) ω (State ν β F P ω) :=
  match i with
  | .op result op operands =>
    match (operands.mapM st.env).bind fun args => host.exec op args st.world with
    | some (value, world) => .next (st.bind result value world)
    | none => .undefined
  | .call result callee args =>
    match args.mapM st.env with
    | some args => .call callee args st.world (st.bind result)
    | none => .undefined
  | .callExternal result callee args =>
    match (args.mapM st.env).bind fun args => host.external callee args st.world with
    | some (value, world) => .next (st.bind result value world)
    | none => .undefined
  | .br target => branch M st target
  | .condBr cond whenTrue whenFalse =>
    match st.env cond with
    | some (.int 1 c) => branch M st (if c = 1 then whenTrue else whenFalse)
    | _ => .undefined
  | .switch value default cases =>
    match st.env value with
    | some (.int _ x) => branch M st (switchTarget st.env x default cases)
    | _ => .undefined
  | .ret none => .ret none st.world
  | .ret (some value) =>
    match st.env value with
    | some v => .ret (some v) st.world
    | none => .undefined
  | .unreachable => .undefined

section
variable {st : State ν β F P ω} {value : Option (Val F P)} {world : ω}

theorem step_op {result : ν} {op : Op τ} {operands : List ν} {args : List (Val F P)}
    (hargs : operands.mapM st.env = some args)
    (h : host.exec op args st.world = some (value, world)) :
    step host M (.op result op operands) st = .next (st.bind result value world) := by
  have hexec : ((operands.mapM st.env).bind fun args => host.exec op args st.world) =
      some (value, world) := by rw [hargs, Option.bind_some, h]
  rw [step, hexec]

theorem step_call {result : ν} {callee : φ} {operands : List ν} {args : List (Val F P)}
    (hargs : operands.mapM st.env = some args) :
    step host M (.call result callee operands) st = .call callee args st.world (st.bind result) := by
  rw [step, hargs]

theorem step_callExternal {result : ν} {callee : ε} {operands : List ν} {args : List (Val F P)}
    (hargs : operands.mapM st.env = some args)
    (h : host.external callee args st.world = some (value, world)) :
    step host M (.callExternal result callee operands) st = .next (st.bind result value world) := by
  have hexec : ((operands.mapM st.env).bind fun args => host.external callee args st.world) =
      some (value, world) := by rw [hargs, Option.bind_some, h]
  rw [step, hexec]

theorem step_condBr {cond : ν} {whenTrue whenFalse : β} {c : BitVec 1}
    (hcond : st.env cond = some (.int 1 c)) : step host M (.condBr cond whenTrue whenFalse) st =
      branch M st (if c = 1 then whenTrue else whenFalse) := by
  simp only [step, hcond]

theorem step_switch {scrutinee : ν} {default : β} {cases : List (ν × β)} {n : Nat} {x : BitVec n}
    (hvalue : st.env scrutinee = some (.int n x)) : step host M (.switch scrutinee default cases) st =
      branch M st (switchTarget st.env x default cases) := by
  rw [step, hvalue]

theorem step_ret {result : ν} {v : Val F P} (hvalue : st.env result = some v) :
    step host M (.ret (some result)) st = .ret (some v) st.world := by
  simp only [step, hvalue]

end

/-- The machine of a module. No value names an argument of the function that runs. -/
def machine : Machine φ β (Instr τ ν β φ ε) (Val F P) ω (State ν β F P ω) where
  entry f _ world := (M.entry f).map fun b => (b, ⟨host.constant, b, world⟩)
  body b := (M.block b).instrs
  step := step host M

end

end Alcy.Lib.Llvm
