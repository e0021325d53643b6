import Alcy.Ir.Accepted

/-! # The verifier reads inside its tables

No storage whatsoever makes `verify_storage` index a table out of range or take a payload under
another tag. Each pass leaves behind what the accesses of the later passes rely on: the ranges of a
block, and for an operand that was checked the bounds of its type and of the entity it names.
-/
namespace Alcy.Ir

open Alcy.Lib.Guards

/-- `x` makes no access that is not covered, and what it accepts satisfies `Q`. -/
abbrev Covered {α : Type} (x : VerifyM α) (Q : α → Prop) : Prop := Avoids Stop.fault x Q

variable {s : Storage}

theorem covered_reject {c : Prop} [Decidable c] {kind : VerifyErrorKind} {index : Nat} :
    Covered (reject c kind index) fun _ => ¬ c := by
  unfold reject err
  split
  · exact .error nofun
  · exact .ok ‹_›

theorem covered_err {α : Type} {kind : VerifyErrorKind} {index : Nat} {Q : α → Prop} :
    Covered (err kind index) Q := .error nofun

theorem covered_read {α : Type} {table : List α} {idx : Nat} (h : idx < table.length) :
    Covered (read table idx) fun a => table[idx]? = some a := by
  unfold read
  rw [List.getElem?_eq_getElem h]
  exact .ok rfl

theorem covered_payload {α : Type} {data : Option α} (h : data.isSome = true) :
    Covered (payload data) fun a => data = some a := by
  obtain ⟨a, rfl⟩ := Option.isSome_iff_exists.1 h
  exact .ok rfl

/-! ## Tables -/

theorem covered_variant {vidx : Nat} (h : vidx < s.enumVariantTypes.length) :
    Covered (verifyVariant s vidx) fun _ => True :=
  (covered_read h).bind fun _ _ => covered_reject.mono fun _ _ => trivial

/-- The metadata of a composite type is read after its index was compared with the table. -/
theorem covered_metadata {α : Type} {data : Option Nat} {table : List α} {kind : VerifyErrorKind}
    {tidx : Nat} {rest : Nat → α → VerifyM Unit} (hdata : data.isSome = true)
    (hrest : ∀ idx a, Covered (rest idx a) fun _ => True) :
    Covered (do let idx ← payload data
                reject (table.length ≤ idx) kind tidx
                let a ← read table idx
                rest idx a) fun _ => True :=
  (covered_payload hdata).bind fun idx _ => covered_reject.bind fun _ hlt =>
    (covered_read (Nat.not_le.1 hlt)).bind fun a _ => hrest idx a

theorem covered_type {tidx : Nat} (h : tidx < s.types.length) :
    Covered (verifyType s tidx) fun _ => True := by
  refine (covered_read h).bind fun node _ => ?_
  have hreject {c : Prop} [Decidable c] {kind : VerifyErrorKind} {index : Nat} :
      Covered (reject c kind index) fun _ => True := covered_reject.mono fun _ _ => trivial
  split
  · exact covered_metadata (by simp [TypeNode.asStruct, *]) fun _ _ => hreject
  split
  · exact covered_metadata (by simp [TypeNode.asArray, *]) fun _ _ => hreject
  split
  · refine covered_metadata (by simp [TypeNode.asEnum, *]) fun _ enumType => ?_
    refine covered_reject.bind fun _ hrange => ?_
    rw [not_not, rangeInBounds_iff] at hrange
    exact (Avoids.forM fun v hv => covered_variant (lt_of_mem_range hrange hv)).mono
      fun _ _ => trivial
  split
  · exact covered_metadata (by simp [TypeNode.asTuple, *]) fun _ _ => hreject
  · exact .ok trivial

theorem covered_register {ridx : Nat} (h : ridx < s.registers.length) :
    Covered (verifyRegister s ridx) fun _ => True :=
  (covered_read h).bind fun _ _ => covered_reject.mono fun _ _ => trivial

theorem covered_immutable {iidx : Nat} (h : iidx < s.immutables.length) :
    Covered (verifyImmutable s iidx) fun _ => True :=
  (covered_read h).bind fun _ _ => covered_reject.mono fun _ _ => trivial

theorem covered_function {fidx : Nat} (h : fidx < s.functions.length) :
    Covered (verifyFunction s fidx) fun _ => True :=
  (covered_read h).bind fun _ _ => covered_reject.bind fun _ _ => covered_reject.bind fun _ _ =>
    (Avoids.forM fun _ _ => covered_reject).mono fun _ _ => trivial

/-! ## Definitions -/

/-- The vector of defined registers has a bit for each register. -/
def Sized (s : Storage) (defined : List Bool) : Prop := defined.length = s.registers.length

theorem covered_define {defined : List Bool} {reg : Nat} (hs : Sized s defined)
    (h : reg < s.registers.length) : Covered (define defined reg) (Sized s) :=
  (covered_read (hs.symm ▸ h)).bind fun _ _ => covered_reject.bind fun _ _ =>
    .ok ((List.length_set ..).trans hs)

theorem covered_defineParam {defined : List Bool} {pidx : Nat} (hs : Sized s defined)
    (h : pidx < s.blockParams.length) : Covered (defineParam s defined pidx) (Sized s) :=
  (covered_read h).bind fun _ _ => covered_reject.bind fun _ _ => covered_reject.bind fun _ hlt =>
    covered_define hs (Nat.not_le.1 hlt)

theorem covered_defineDst {defined : List Bool} {iidx : Nat} (hs : Sized s defined)
    (h : iidx < s.instrs.length) : Covered (defineDst s defined iidx) (Sized s) := by
  refine (covered_read h).bind fun instr _ => ?_
  cases instr.dst with
  | none => exact .ok hs
  | some dst => exact covered_reject.bind fun _ hlt => covered_define hs (Nat.not_le.1 hlt)

/-- The ranges of a block are inside their tables. -/
def BlockInBounds (s : Storage) (bidx : BlockIdx) : Prop :=
  ∀ block, s.blocks[bidx]? = some block →
    block.instrs.head + block.instrs.size ≤ s.instrs.length ∧
    block.blockParams.head + block.blockParams.size ≤ s.blockParams.length

theorem covered_defineBlock {defined : List Bool} {bidx : Nat} (hs : Sized s defined)
    (h : bidx < s.blocks.length) :
    Covered (defineBlock s defined bidx) fun d => Sized s d ∧ BlockInBounds s bidx := by
  refine (covered_read h).bind fun block hblock => covered_reject.bind fun _ hi =>
    covered_reject.bind fun _ hp => ?_
  rw [not_not, rangeInBounds_iff] at hi hp
  have hbounds : BlockInBounds s bidx := fun b hb => by
    rw [hblock, Option.some.injEq] at hb
    exact hb ▸ ⟨hi, hp⟩
  refine (Avoids.foldlM (Q := fun _ => True) (I := Sized s) (fun p hm d hd =>
    (covered_defineParam hd (lt_of_mem_range hp hm)).mono fun _ h => ⟨h, trivial⟩) hs).bind
      fun d hd => ?_
  exact (Avoids.foldlM (Q := fun _ => True) (I := Sized s) (fun i hm d hd =>
    (covered_defineDst hd (lt_of_mem_range hi hm)).mono fun _ h => ⟨h, trivial⟩) hd.1).mono
      fun _ h => ⟨h.1, hbounds⟩

/-! ## Operands and shapes -/

/-- What the loop over the operands establishes of one of them. -/
structure OperandInBounds (s : Storage) (operand : Operand) : Prop where
  type : operand.type < s.types.length
  register : ∀ idx, operand.data = .register idx → idx < s.registers.length
  function : ∀ idx, operand.data = .function idx → idx < s.functions.length
  block : ∀ idx, operand.data = .block idx → idx < s.blocks.length
  immutable : ∀ idx, operand.data = .immutable idx → idx < s.immutables.length
  externalFunction : ∀ idx, operand.data = .externalFunction idx →
    idx < s.externalFunctions.length

/-- The operand at a position was checked. -/
def OperandChecked (s : Storage) (oidx : OperandIdx) : Prop :=
  ∃ operand, s.operands[oidx]? = some operand ∧ OperandInBounds s operand

theorem covered_operand {defined : List Bool} {oidx : Nat} (hs : Sized s defined)
    (h : oidx < s.operands.length) :
    Covered (verifyOperand s defined oidx) fun _ => OperandChecked s oidx := by
  refine (covered_read h).bind fun operand hop => covered_reject.bind fun _ htype => ?_
  obtain ⟨data, type⟩ := operand
  have htype := Nat.not_le.1 htype
  cases data with
  | register idx =>
    refine covered_reject.bind fun _ hlt => ?_
    have hlt := Nat.not_le.1 hlt
    refine (covered_read (hs.symm ▸ hlt)).bind fun _ _ => covered_reject.mono fun _ _ => ?_
    exact ⟨_, hop, htype, by rintro _ ⟨⟩; exact hlt, nofun, nofun, nofun, nofun⟩
  | function idx =>
    exact covered_reject.mono fun _ hlt =>
      ⟨_, hop, htype, nofun, by rintro _ ⟨⟩; exact Nat.not_le.1 hlt, nofun, nofun, nofun⟩
  | block idx =>
    exact covered_reject.mono fun _ hlt =>
      ⟨_, hop, htype, nofun, nofun, by rintro _ ⟨⟩; exact Nat.not_le.1 hlt, nofun, nofun⟩
  | immutable idx =>
    exact covered_reject.mono fun _ hlt =>
      ⟨_, hop, htype, nofun, nofun, nofun, by rintro _ ⟨⟩; exact Nat.not_le.1 hlt, nofun⟩
  | externalFunction idx =>
    exact covered_reject.mono fun _ hlt =>
      ⟨_, hop, htype, nofun, nofun, nofun, nofun, by rintro _ ⟨⟩; exact Nat.not_le.1 hlt⟩
  | void => exact covered_err

/-- Reading an operand that was checked. -/
theorem covered_checked {oidx : Nat} (h : OperandChecked s oidx) :
    Covered (read s.operands oidx) fun o => s.operands[oidx]? = some o ∧ OperandInBounds s o := by
  obtain ⟨operand, hop, hb⟩ := h
  refine (covered_read (List.getElem?_eq_some_iff.1 hop).1).mono fun o ho => ⟨ho, ?_⟩
  rw [hop, Option.some.injEq] at ho
  exact ho ▸ hb

theorem asBlock_eq_some {o : Operand} {b : BlockIdx} : o.asBlock = some b ↔ o.data = .block b := by
  unfold Operand.asBlock
  split <;> simp_all

theorem covered_plainTarget {kind : VerifyErrorKind} {iidx : Nat} {target : Operand}
    (h : OperandInBounds s target) : Covered (verifyPlainTarget s kind iidx target) fun _ => True :=
  covered_reject.bind fun _ hsome =>
    (covered_payload (by simpa [Option.isSome_iff_ne_none] using hsome)).bind fun b hb =>
    (covered_read (h.block b (asBlock_eq_some.1 hb))).bind fun _ _ =>
    covered_reject.mono fun _ _ => trivial

section
variable {iidx : InstructionIdx} {ops : IdxRange}
  (hops : ∀ oidx ∈ ops.toList, OperandChecked s oidx)
include hops

/-- The operand at an offset below the number of operands. -/
theorem checked_offset {offset : Nat} (h : offset < ops.size) :
    OperandChecked s (ops.head + offset) :=
  hops _ (IdxRange.mem_toList.2 (by omega))

theorem checked_head (h : 0 < ops.size) : OperandChecked s ops.head := checked_offset hops h

theorem covered_call : Covered (verifyCall s iidx ops) fun _ => True := by
  refine covered_reject.bind fun _ hne => ?_
  have hpos : 0 < ops.size := by simpa [IdxRange.isEmpty, Nat.pos_iff_ne_zero] using hne
  refine (covered_checked (checked_head hops hpos)).bind fun head ⟨_, hb⟩ => ?_
  refine Avoids.bind (Q := fun _ => True) ?_ fun _ _ => covered_reject.mono fun _ _ => trivial
  obtain ⟨data, type⟩ := head
  cases data with
  | function idx => exact (covered_read (hb.function idx rfl)).bind fun _ _ => .ok trivial
  | externalFunction idx =>
    exact (covered_read (hb.externalFunction idx rfl)).bind fun _ _ => .ok trivial
  | register | block | immutable | void => exact covered_err

theorem covered_br : Covered (verifyBr s iidx ops) fun _ => True := by
  refine covered_reject.bind fun _ hne => ?_
  have hpos : 0 < ops.size := by simpa [IdxRange.isEmpty, Nat.pos_iff_ne_zero] using hne
  exact (covered_checked (checked_head hops hpos)).bind fun _ _ =>
    covered_reject.mono fun _ _ => trivial

theorem covered_condBr : Covered (verifyCondBr s iidx ops) fun _ => True := by
  refine covered_reject.bind fun _ hsize => ?_
  rw [not_not] at hsize
  refine (covered_checked (checked_head hops (by omega))).bind fun cond ⟨_, hcond⟩ =>
    (covered_read hcond.type).bind fun _ _ => covered_reject.bind fun _ _ => ?_
  refine (Avoids.forM (Q := fun _ => True) fun offset hm => ?_).mono fun _ _ => trivial
  have hlt : offset < ops.size := by
    rcases List.mem_pair.1 hm with rfl | rfl <;> omega
  exact (covered_checked (checked_offset hops hlt)).bind fun _ ht => covered_plainTarget ht.2

theorem covered_switchCase {offset : Nat} (h : offset + 1 < ops.size) :
    Covered (verifySwitchCase s iidx ops offset) fun _ => True :=
  (covered_checked (checked_offset hops (Nat.lt_of_succ_lt h))).bind fun _ _ =>
    (covered_checked (checked_offset hops h)).bind fun _ ht =>
    covered_reject.bind fun _ _ => covered_plainTarget ht.2

theorem covered_switch : Covered (verifySwitch s iidx ops) fun _ => True := by
  refine covered_reject.bind fun _ hsize => ?_
  refine (covered_checked (checked_head hops (by omega))).bind fun value ⟨_, hvalue⟩ =>
    (covered_read hvalue.type).bind fun _ _ => covered_reject.bind fun _ _ =>
    (covered_checked (checked_offset hops (by omega))).bind fun _ ht =>
    (covered_plainTarget ht.2).bind fun _ _ => ?_
  refine (Avoids.forM (Q := fun _ => True) fun offset hm => ?_).mono fun _ _ => trivial
  obtain ⟨k, hk, rfl⟩ := List.mem_range'.1 hm
  exact covered_switchCase hops (by omega)

theorem covered_getElementPtr : Covered (verifyGetElementPtr s iidx ops) fun _ => True := by
  refine covered_reject.bind fun _ hsize => ?_
  refine (covered_checked (checked_head hops (by omega))).bind fun _ _ =>
    covered_reject.bind fun _ _ => ?_
  refine (Avoids.forM (Q := fun _ => True) fun offset hm => ?_).mono fun _ _ => trivial
  rw [List.mem_range'_1] at hm
  exact (covered_checked (checked_offset hops (by omega))).bind fun _ ho =>
    (covered_read ho.2.type).bind fun _ _ => covered_reject.mono fun _ _ => trivial

theorem covered_extractInsert {op : Opcode} :
    Covered (verifyExtractInsert s iidx op ops) fun _ => True := by
  unfold verifyExtractInsert
  generalize (if op = .extractValue then 1 else 2) = firstIndex
  refine covered_reject.bind fun _ hsize => ?_
  refine (Avoids.forM (Q := fun _ => True) fun offset hm => ?_).mono fun _ _ => trivial
  rw [List.mem_range'_1] at hm
  exact (covered_checked (checked_offset hops (by omega))).bind fun _ ho =>
    covered_reject.bind fun _ _ => (covered_read ho.2.type).bind fun _ _ =>
    covered_reject.mono fun _ _ => trivial

end

theorem covered_shape {iidx : Nat} {instr : Instruction}
    (hops : ∀ oidx ∈ instr.operands.toList, OperandChecked s oidx) :
    Covered (verifyShape s iidx instr) fun _ => True := by
  unfold verifyShape
  split
  · exact covered_call hops
  · exact covered_br hops
  · exact covered_condBr hops
  · exact covered_switch hops
  · exact covered_getElementPtr hops
  · exact covered_extractInsert hops
  · exact covered_extractInsert hops
  · exact .ok trivial

theorem covered_instr {defined : List Bool} {bidx iidx : Nat} {block : Block}
    (hs : Sized s defined) (h : iidx < s.instrs.length) :
    Covered (verifyInstr s defined bidx block iidx) fun _ => True := by
  refine (covered_read h).bind fun instr _ => covered_reject.bind fun _ _ =>
    covered_reject.bind fun _ _ => covered_reject.bind fun _ hrange => ?_
  rw [not_not, rangeInBounds_iff] at hrange
  refine (Avoids.forM fun o hm => covered_operand hs (lt_of_mem_range hrange hm)).bind
    fun _ hops => covered_shape hops

theorem covered_block {defined : List Bool} {bidx : Nat} (hs : Sized s defined)
    (h : bidx < s.blocks.length) (hbounds : BlockInBounds s bidx) :
    Covered (verifyBlock s defined bidx) fun _ => True :=
  (covered_read h).bind fun block hblock => covered_reject.bind fun _ _ =>
    (Avoids.forM (Q := fun _ => True) fun _ hm =>
      covered_instr hs (lt_of_mem_range (hbounds block hblock).1 hm)).mono fun _ _ => trivial

/-- **Every access is covered.** Whatever the tables hold, the verifier reads inside them and under
the tags it has tested. -/
theorem verifyStorage_no_fault (s : Storage) : verifyStorage s ≠ .error .fault := by
  suffices h : Covered (verifyStorage s) fun _ => True from h.1
  have hrange {n i : Nat} (hm : i ∈ List.range n) : i < n := List.mem_range.1 hm
  refine (Avoids.forM fun i hm => covered_type (hrange hm)).bind fun _ _ =>
    (Avoids.forM fun i hm => covered_register (hrange hm)).bind fun _ _ =>
    (Avoids.forM fun i hm => covered_immutable (hrange hm)).bind fun _ _ =>
    (Avoids.forM fun i hm => covered_function (hrange hm)).bind fun _ _ =>
    (Avoids.foldlM (I := Sized s) (Q := BlockInBounds s) (fun i hm d hd => covered_defineBlock hd (hrange hm))
      List.length_replicate).bind fun defined ⟨hd, hblocks⟩ =>
    (Avoids.forM fun i hm => covered_block hd (hrange hm) (hblocks i hm)).bind fun _ _ => ?_
  exact (Avoids.forM (Q := fun _ => True) fun i hm => (covered_read (hrange hm)).bind fun _ _ =>
    covered_reject.mono fun _ _ => trivial).mono fun _ _ => trivial

end Alcy.Ir
