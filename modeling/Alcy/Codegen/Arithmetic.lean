import Alcy.Codegen.Selection
import Alcy.Ir.Semantics
import Mathlib.Algebra.Order.Ring.Int
import Mathlib.Order.Compare

/-! # Arithmetic on numbers and on bits

What the opcodes say of numbers is what the LLVM instructions do to bits: arithmetic
(`eval_of_arithmetic`), comparisons (`eval_of_compares`) and casts between integers
(`setWidth_number`).
-/
namespace Alcy.Codegen

open Alcy.Ir Alcy.Lib.Llvm

variable {n : Nat}

/-! ## Arithmetic -/

theorem sub_eq_ofInt (x y : BitVec n) : x - y = .ofInt n (x.toInt - y.toInt) := by
  rw [← BitVec.toInt_inj, BitVec.toInt_sub, BitVec.toInt_ofInt]

theorem sdiv_eq_ofInt (x y : BitVec n) : x.sdiv y = .ofInt n (x.toInt.tdiv y.toInt) := by
  rw [← BitVec.toInt_inj, BitVec.toInt_sdiv, BitVec.toInt_ofInt]

theorem srem_eq_ofInt (x y : BitVec n) : x.srem y = .ofInt n (x.toInt.tmod y.toInt) := by
  rw [← BitVec.toInt_srem, BitVec.ofInt_toInt]

theorem udiv_eq_ofNat (x y : BitVec n) : x.udiv y = .ofNat n (x.toNat / y.toNat) := by
  rw [BitVec.udiv_eq, ← BitVec.toNat_udiv, BitVec.ofNat_toNat, BitVec.setWidth_eq]

theorem umod_eq_ofNat (x y : BitVec n) : x.umod y = .ofNat n (x.toNat % y.toNat) := by
  rw [BitVec.umod_eq, ← BitVec.toNat_umod, BitVec.ofNat_toNat, BitVec.setWidth_eq]

theorem shiftLeft_eq_ofInt (x : BitVec n) (k : Nat) : x <<< k = .ofInt n (x.toInt * 2 ^ k) := by
  rw [BitVec.ofInt_mul, BitVec.ofInt_toInt, BitVec.shiftLeft_eq_mul_twoPow]
  congr 1
  rw [show (2 ^ k : Int) = ((2 ^ k : Nat) : Int) by norm_cast, BitVec.ofInt_natCast]
  exact BitVec.eq_of_toNat_eq (by rw [BitVec.toNat_twoPow, BitVec.toNat_ofNat])

theorem sshiftRight_eq_ofInt (x : BitVec n) (k : Nat) :
    x.sshiftRight k = .ofInt n (x.toInt / 2 ^ k) := by
  rw [BitVec.sshiftRight, Int.shiftRight_eq_div_pow]
  norm_cast

theorem ushiftRight_eq_ofNat (x : BitVec n) (k : Nat) : x >>> k = .ofNat n (x.toNat / 2 ^ k) := by
  rw [← Nat.shiftRight_eq_div_pow, ← BitVec.toNat_ushiftRight, BitVec.ofNat_toNat,
    BitVec.setWidth_eq]

/-- A quotient that fits is not the one that overflows. -/
theorem not_overflow {x y : BitVec n} (hy : y.toInt ≠ 0)
    (h : FitsInt true n (x.toInt.tdiv y.toInt)) : ¬ (y = 0 ∨ (x = .intMin n ∧ y = -1)) := by
  rintro (rfl | ⟨rfl, rfl⟩)
  · exact hy BitVec.toInt_zero
  · have hn : 0 < n := by
      rcases Nat.eq_zero_or_pos n with rfl | hn
      exacts [absurd (congrArg BitVec.toInt (BitVec.eq_nil (-1 : BitVec 0))) hy, hn]
    have hone : (-1 : BitVec n).toInt = -1 := by
      rw [show (-1 : BitVec n) = BitVec.allOnes n from BitVec.neg_one_eq_allOnes,
        BitVec.toInt_allOnes, if_pos hn]
    have hmin : (BitVec.intMin n).toInt = -2 ^ (n - 1) := by
      rw [BitVec.toInt_intMin, Nat.mod_eq_of_lt (Nat.pow_lt_pow_right (by omega) (by omega))]
      norm_cast
    have hlt : (BitVec.ofInt n ((BitVec.intMin n).toInt.tdiv (-1 : BitVec n).toInt)).toInt <
        2 ^ (n - 1) := BitVec.toInt_lt
    have hfits := h
    rw [FitsInt, readInt, if_pos rfl] at hfits
    rw [hfits, hmin, hone, Int.neg_tdiv_neg, Int.tdiv_one] at hlt
    exact Int.lt_irrefl _ hlt

/-- **Arithmetic** on numbers is arithmetic on their bits. -/
theorem eval_of_arithmetic {op : Opcode} {b : BinaryOp} {x y z : BitVec n}
    (hb : binaryOp op = some b) (hz : arithmetic op x y = some z) : b.eval x y = some z := by
  have hnat (h : y.toNat ≠ 0) : ¬ y = 0 := fun he => h (by rw [he]; rfl)
  cases op <;> cases hb <;> simp only [arithmetic] at hz <;> simp only [BinaryOp.eval]
  case intAdd => rw [← hz, BitVec.ofInt_add, BitVec.ofInt_toInt, BitVec.ofInt_toInt]
  case intSub => rw [← hz, sub_eq_ofInt]
  case intMul => rw [← hz, BitVec.ofInt_mul, BitVec.ofInt_toInt, BitVec.ofInt_toInt]
  case intDiv =>
    split at hz
    · next h => rw [if_neg (not_overflow h.1 h.2), sdiv_eq_ofInt, hz]
    · cases hz
  case intRem =>
    split at hz
    · next h => rw [if_neg (not_overflow h.1 h.2), srem_eq_ofInt, hz]
    · cases hz
  case uintDiv =>
    split at hz
    · next h => rw [if_neg (hnat h), udiv_eq_ofNat, hz]
    · cases hz
  case uintRem =>
    split at hz
    · next h => rw [if_neg (hnat h), umod_eq_ofNat, hz]
    · cases hz
  case shiftLeft =>
    split at hz
    · next h => rw [if_pos h, shiftLeft_eq_ofInt, hz]
    · cases hz
  case arithmeticShiftRight =>
    split at hz
    · next h => rw [if_pos h, sshiftRight_eq_ofInt, hz]
    · cases hz
  case logicalShiftRight =>
    split at hz
    · next h => rw [if_pos h, ushiftRight_eq_ofNat, hz]
    · cases hz
  all_goals exact hz

/-! ## Comparisons -/

theorem number_inj {tag : TypeTag} {x y : BitVec n} : number tag x = number tag y ↔ x = y := by
  unfold number readInt
  split
  · exact BitVec.toInt_inj
  · rw [Int.natCast_inj]
    exact BitVec.toNat_inj

/-- What the opcodes ask of two numbers. -/
theorem compares_compare (a b : Int) : compares .eq (compare a b) = decide (a = b) ∧
    compares .ne (compare a b) = !decide (a = b) ∧ compares .lt (compare a b) = decide (a < b) ∧
    compares .le (compare a b) = decide (a ≤ b) ∧ compares .gt (compare a b) = decide (b < a) ∧
    compares .ge (compare a b) = decide (b ≤ a) := by
  rcases lt_trichotomy a b with h | h | h
  · rw [compare_lt_iff_lt.2 h]
    simp [compares, h, h.ne, h.le, h.not_gt, h.not_ge]
  · rw [compare_eq_iff_eq.2 h]
    simp [compares, h]
  · rw [compare_gt_iff_gt.2 h]
    simp [compares, h, h.ne', h.le, h.not_gt, h.not_ge]

/-- **Comparisons** of numbers are comparisons of their bits. -/
theorem eval_of_compares {op : Opcode} {tag : TypeTag} {p : IntPredicate}
    (hp : intPredicate op (isSignedIntegerType tag) = some p) (x y : BitVec n) :
    p.eval x y = compares op (compare (number tag x) (number tag y)) := by
  have hlt (a b : BitVec n) : (if isSignedIntegerType tag then a.slt b else a.ult b) =
      decide (number tag a < number tag b) := by
    unfold number readInt
    split
    · exact BitVec.slt_eq_decide
    · simp [BitVec.ult_eq_decide]
  have hle (a b : BitVec n) : (if isSignedIntegerType tag then a.sle b else a.ule b) =
      decide (number tag a ≤ number tag b) := by
    unfold number readInt
    split
    · exact BitVec.sle_eq_decide
    · simp [BitVec.ule_eq_decide]
  have heq : (x == y) = decide (number tag x = number tag y) := by
    rw [Bool.eq_iff_iff]
    simp [number_inj]
  obtain ⟨ceq, cne, clt, cle, cgt, cge⟩ := compares_compare (number tag x) (number tag y)
  cases op <;> cases hp
  case eq => rw [ceq, ← heq, IntPredicate.eval]
  case ne => rw [cne, ← heq, IntPredicate.eval, bne]
  case lt => rw [clt, ← hlt, apply_ite (IntPredicate.eval · x y)]; rfl
  case le => rw [cle, ← hle, apply_ite (IntPredicate.eval · x y)]; rfl
  case gt => rw [cgt, ← hlt, apply_ite (IntPredicate.eval · x y)]; rfl
  case ge => rw [cge, ← hle, apply_ite (IntPredicate.eval · x y)]; rfl

/-! ## Casts -/

/-- The bits of a number at another width. -/
theorem ofInt_number (tag : TypeTag) (m : Nat) (x : BitVec n) : BitVec.ofInt m (number tag x) =
    if isSignedIntegerType tag then x.signExtend m else x.setWidth m := by
  unfold number readInt
  split
  · rfl
  · rw [BitVec.ofInt_natCast, BitVec.ofNat_toNat]

end Alcy.Codegen
