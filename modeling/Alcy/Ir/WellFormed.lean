import Alcy.Ir.Safe

/-! # Single definition and termination

The form `verify_storage` enforces: no register is defined twice, none is used without a definition,
a block ends in its one terminator, and a function has a block. The definitions are counted along
the ranges of the blocks, so an instruction that two blocks share counts twice.
-/
namespace Alcy.Ir

open Alcy.Lib.Guards

/-- Single definitions and proper termination. -/
structure WellFormed (s : Storage) : Prop where
  /-- No register is bound twice, by parameters and destinations together. -/
  single : (s.sites.filterMap s.definition).Nodup
  /-- A register operand of an instruction in a block has a definition, and one only. -/
  defined : ∀ block ∈ s.blocks, ∀ i ∈ block.instrs.toList, ∀ instr, s.instrs[i]? = some instr →
    ∀ o ∈ instr.operands.toList, ∀ r ty, s.operands[o]? = some ⟨.register r, ty⟩ →
    ∃ d, s.SoleDefinition r d
  nonempty : ∀ block ∈ s.blocks, block.instrs.toList ≠ []
  /-- The last instruction of a block is a terminator, the others are not. -/
  terminated : ∀ block ∈ s.blocks, ∀ i ∈ block.instrs.toList, ∀ instr, s.instrs[i]? = some instr →
    (isTerminator instr.op = true ↔ block.instrs.toList.getLast? = some i)
  functions : ∀ func ∈ s.functions, func.blocks.toList ≠ []

variable {s : Storage}

theorem toList_ne_nil {r : IdxRange} (h : r.isEmpty = false) : r.toList ≠ [] := by
  simpa [IdxRange.isEmpty, IdxRange.toList, List.range'_eq_nil_iff] using h

/-- The last position of a range is the one before its end. -/
theorem getLast?_toList {r : IdxRange} {i : Nat} (h : i ∈ r.toList) :
    r.toList.getLast? = some i ↔ i + 1 = r.head + r.size := by
  rw [IdxRange.mem_toList] at h
  unfold IdxRange.toList
  rw [List.getLast?_range', if_neg (by omega), Option.some.injEq]
  omega

/-- A register operand that was accepted is one of the registers marked as defined. -/
theorem definition_of_operand {defined : List Bool} (hm : Marks s s.sites defined) {o r ty : Nat}
    (ho : s.operands[o]? = some ⟨.register r, ty⟩) (hv : verifyOperand s defined o = .ok ()) :
    ∃ d ∈ s.sites, s.definition d = some r := by
  simp only [verifyOperand, bind_eq_ok, exists_unit, read_eq_ok, reject_eq_ok, ho,
    Option.some.injEq, exists_eq_left'] at hv
  obtain ⟨_, _, isDefined, hdef, htrue⟩ := hv
  rw [Bool.not_eq_false] at htrue
  exact List.mem_filterMap.1 ((hm.marked r).1 (htrue ▸ hdef))

theorem wellFormed_of_accepted (hv : verifyStorage s = .ok ()) : WellFormed s := by
  obtain ⟨_, _, _, _, defined, ho, hblocks, hfuncs⟩ := verifyStorage_eq_ok.1 hv
  have hmem {block : Block} (h : block ∈ s.blocks) :
      ∃ b, s.blocks[b]? = some block := List.mem_iff_getElem?.1 h
  refine ⟨(marks_of_define ho).nodup, fun block hb i hi instr hinstr o hop r ty hreg => ?_,
    fun block hb => ?_, fun block hb i hi instr hinstr => ?_,
    fun func hf => toList_ne_nil (hfuncs func hf)⟩
  · obtain ⟨b, hb⟩ := hmem hb
    obtain ⟨defined, instr', hm, hinstr', _, _, hops, _⟩ := instr_of_accepted hv hb hi
    rw [hinstr, Option.some.injEq] at hinstr'
    subst hinstr'
    obtain ⟨d, hd, hr⟩ := definition_of_operand hm hreg (hops o hop)
    exact ⟨d, soleDefinition_of_accepted hv hd hr⟩
  · obtain ⟨b, hb⟩ := hmem hb
    obtain ⟨block', hb', hne, _⟩ :=
      verifyBlock_eq_ok.1 (hblocks b (List.getElem?_eq_some_iff.1 hb).1)
    rw [hb, Option.some.injEq] at hb'
    exact hb' ▸ toList_ne_nil hne
  · obtain ⟨b, hb⟩ := hmem hb
    obtain ⟨_, instr', _, hinstr', hterm, _⟩ := instr_of_accepted hv hb hi
    rw [hinstr, Option.some.injEq] at hinstr'
    rw [getLast?_toList hi, hinstr', hterm]

/-- **What acceptance means for definitions and terminators**: an accepted storage is well formed,
and one that is not is refused with an error. -/
theorem verifyStorage_wellFormed (s : Storage) :
    (verifyStorage s = .ok () → WellFormed s) ∧
      (¬ WellFormed s → ∃ e, verifyStorage s = .error (.error e)) := by
  refine ⟨wellFormed_of_accepted, fun hbroken => ?_⟩
  rcases h : verifyStorage s with (e | _) | _
  · exact ⟨e, rfl⟩
  · exact absurd h (verifyStorage_no_fault s)
  · exact absurd (wellFormed_of_accepted h) hbroken

end Alcy.Ir
