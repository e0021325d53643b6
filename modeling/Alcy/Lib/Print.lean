import Mathlib.Algebra.Group.Nat.Defs

/-! # Printed text

Texts as the bytes of their UTF-8 encoding, and numbers in decimal digits. Both can be told from
what is printed.
-/
namespace Alcy.Lib.Print

abbrev Bytes := List UInt8

/-! ## UTF-8 -/

/-- The UTF-8 bytes of a text. -/
def utf8 (text : List Char) : Bytes := text.flatMap String.utf8EncodeChar

theorem utf8_append (text text' : List Char) : utf8 (text ++ text') = utf8 text ++ utf8 text' :=
  List.flatMap_append

theorem utf8_injective : Function.Injective utf8 := by
  intro text text' h
  have hbytes : text.utf8Encode = text'.utf8Encode := congrArg List.toByteArray h
  have hdecode := congrArg ByteArray.utf8Decode? hbytes
  rw [List.utf8Decode?_utf8Encode, List.utf8Decode?_utf8Encode] at hdecode
  simpa using hdecode

/-- An ASCII character is one byte, and the bytes of all others lie beyond those. -/
theorem utf8EncodeChar_cases (c : Char) :
    (c.toNat < 0x80 ∧ String.utf8EncodeChar c = [UInt8.ofNat c.toNat]) ∨
      (0x80 ≤ c.toNat ∧ ∀ b ∈ String.utf8EncodeChar c, 0x80 ≤ b.toNat) := by
  have htoNat : c.val.toNat = c.toNat := rfl
  unfold String.utf8EncodeChar
  simp only [htoNat]
  by_cases hascii : c.toNat ≤ 0x7f
  · rw [if_pos hascii]
    exact .inl ⟨Nat.lt_succ_of_le hascii, rfl⟩
  · refine .inr ⟨Nat.lt_of_not_le hascii, fun b hb => ?_⟩
    rw [if_neg hascii] at hb
    split at hb
    · simp only [List.mem_cons, List.not_mem_nil, or_false] at hb
      rcases hb with rfl | rfl <;> rw [UInt8.toNat_ofNat'] <;> omega
    · split at hb
      · simp only [List.mem_cons, List.not_mem_nil, or_false] at hb
        rcases hb with rfl | rfl | rfl <;> rw [UInt8.toNat_ofNat'] <;> omega
      · simp only [List.mem_cons, List.not_mem_nil, or_false] at hb
        rcases hb with rfl | rfl | rfl | rfl <;> rw [UInt8.toNat_ofNat'] <;> omega

theorem utf8_length {text : List Char} (h : ∀ c ∈ text, c.toNat < 0x80) :
    (utf8 text).length = text.length := by
  induction text with
  | nil => rfl
  | cons c text ih =>
    obtain ⟨hc, htext⟩ := List.forall_mem_cons.1 h
    rcases utf8EncodeChar_cases c with ⟨-, hbytes⟩ | ⟨hbeyond, -⟩
    · rw [utf8, List.flatMap_cons, hbytes, List.length_append, List.length_cons]
      exact (congrArg (1 + ·) (ih htext)).trans (Nat.add_comm ..)
    · omega

/-! ## Decimal digits -/

def decimal (value : Nat) : List Char := Nat.toDigits 10 value

theorem decimal_digit {value : Nat} {c : Char} (h : c ∈ decimal value) : c.isDigit :=
  Nat.isDigit_of_mem_toDigits (by decide) (by decide) h

theorem ofDigits_decimal (value : Nat) : Nat.ofDigitChars 10 (decimal value) 0 = value :=
  Nat.ofDigitChars_ten_toDigits

theorem utf8_decimal_length (value : Nat) :
    (utf8 (decimal value)).length = (decimal value).length := by
  refine utf8_length fun c hc => ?_
  have hdigit := decimal_digit hc
  simp only [Char.isDigit, Bool.and_eq_true, decide_eq_true_eq] at hdigit
  have hle : c.toNat ≤ '9'.toNat := hdigit.2
  exact Nat.lt_of_le_of_lt hle (by decide)

end Alcy.Lib.Print
