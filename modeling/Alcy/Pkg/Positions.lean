import Alcy.Diag.Render
import Alcy.Pkg.Manifest

/-! # Lines and columns, and offsets

`line_col_to_offset` of `src/pkg/manifest.cc` against `locate` of `src/diag/render.cc`: two scans of
the same buffer that should undo each other.
-/
namespace Alcy.Pkg
open Alcy.Diag Alcy.Lib Alcy.Lib.Print

theorem skipLines_cons (lines : Nat) (byte : UInt8) (bytes : Bytes) :
    skipLines (lines + 1) (byte :: bytes) =
      1 + skipLines (if byte = newline then lines else lines + 1) bytes := by
  rw [skipLines]
  exact congrArg (1 + skipLines · bytes) (if_congr beq_iff_eq rfl rfl)

/-- Skipping as many lines as newlines came before leads to where the last line starts. -/
theorem skipLines_count {before : Bytes} (h : Lines.Ended newline before) (rest : Bytes) :
    skipLines (before.count newline) (before ++ rest) = before.length := by
  induction before with
  | nil => cases rest <;> rfl
  | cons byte before ih =>
    have hlast : before = [] ∨ before.getLast? = some newline := by
      cases before with
      | nil => exact .inl rfl
      | cons other before =>
        exact .inr ((List.getLast?_cons_cons ..).symm.trans (h.resolve_left nofun))
    by_cases hbyte : byte = newline
    · subst hbyte
      rw [List.count_cons_self, List.cons_append, skipLines_cons, if_pos rfl, ih hlast,
        List.length_cons, Nat.add_comm]
    · have hmem : newline ∈ before := by
        rcases hlast with rfl | hlast
        · exact absurd (Option.some.inj (h.resolve_left nofun)) hbyte
        · exact List.mem_of_getLast? hlast
      obtain ⟨lines, hlines⟩ := Nat.exists_eq_succ_of_ne_zero
        (Nat.ne_of_gt (List.count_pos_iff.2 hmem))
      have hskip := ih hlast
      rw [hlines] at hskip
      rw [List.count_cons_of_ne hbyte, hlines, List.cons_append, skipLines_cons, if_neg hbyte,
        hskip, List.length_cons, Nat.add_comm]

/-- The line of an offset: the bytes between the newlines around it, or the ends of the buffer, with
the offset on it. -/
structure OnLine (bytes : Bytes) (offset : Nat) (info : LineInfo) : Prop where
  split : ∃ before after, bytes = before ++ info.text ++ after ∧ Lines.Ended newline before ∧
    Lines.Begun newline after ∧ newline ∉ info.text ∧
    before.length ≤ offset ∧ offset ≤ before.length + info.text.length
  column : info.col - 1 ≤ info.text.length

section
variable {bytes : Bytes} {offset : Nat} (hsize : bytes.length < 2 ^ 32)
  (hoffset : offset ≤ bytes.length)
include hsize hoffset

omit hsize in
theorem placeOf_eq : placeOf bytes offset = offset := Nat.min_eq_left hoffset

/-- In a buffer that `u32`s can count the line stops before the next newline. -/
theorem locate_takeWhile : (locate bytes offset).text =
    (bytes.drop (startOf bytes offset)).takeWhile (· ≠ newline) := by
  have hstart : startOf bytes offset ≤ bytes.length := Nat.le_trans (startOf_le ..) hoffset
  rw [locate_text (Nat.lt_of_le_of_lt hoffset hsize), placeOf_eq hoffset, stopOf,
    u32_of_lt hsize, if_pos hstart, List.take_length, Lines.lineStop, Nat.add_sub_cancel_left]
  exact (List.prefix_iff_eq_take.1 (List.takeWhile_prefix _)).symm

theorem locate_onLine : OnLine bytes offset (locate bytes offset) := by
  have hlt := Nat.lt_of_le_of_lt hoffset hsize
  have hstart := startOf_le bytes offset
  obtain ⟨before, line, htake, hbefore, hended, hline⟩ :=
    Lines.lineStart_split newline (bytes.take offset)
  have hlength : before.length = startOf bytes offset := hbefore
  have hbytes : bytes = before ++ (line ++ bytes.drop offset) := by
    rw [← List.append_assoc, ← htake, List.take_append_drop]
  have hdrop : bytes.drop (startOf bytes offset) = line ++ bytes.drop offset := by
    rw [← hlength]
    conv_lhs => rw [hbytes]
    exact List.drop_left ..
  obtain ⟨text, after, hrest, htext, hbegun, hnone⟩ :=
    Lines.takeWhile_split newline (bytes.drop (startOf bytes offset))
  rw [← locate_takeWhile hsize hoffset] at htext
  have hreach : offset ≤ startOf bytes offset + text.length := by
    have hlong : line.length ≤ text.length := by
      rw [htext, locate_takeWhile hsize hoffset, hdrop, List.takeWhile_append_of_pos]
      · rw [List.length_append]
        exact Nat.le_add_right ..
      · exact fun byte hbyte => decide_eq_true fun heq => hline (heq ▸ hbyte)
    have hsum := congrArg List.length htake
    rw [List.length_take_of_le hoffset, List.length_append, hlength] at hsum
    omega
  subst htext
  refine ⟨⟨before, after, ?_, hended, hbegun, hnone, hlength ▸ hstart, hlength ▸ hreach⟩, ?_⟩
  · rw [List.append_assoc, ← hrest, hdrop]
    exact hbytes
  · have hcol : (locate bytes offset).col ≤ offset - startOf bytes offset + 1 := by
      rw [locate_eq hlt, placeOf_eq hoffset]
      exact u32_le _
    omega

/-- **Lines and columns lead back to the offset**, unless one of them comes to 2^32. -/
theorem lineColToOffset_locate_iff : lineColToOffset bytes (locate bytes offset).line
    (locate bytes offset).col = offset ↔
      ¬ (offset = 2 ^ 32 - 1 ∧ (newline ∉ bytes ∨ ∀ byte ∈ bytes, byte = newline)) := by
  have hlt := Nat.lt_of_le_of_lt hoffset hsize
  have hstart := startOf_le bytes offset
  obtain ⟨before, line, htake, hbefore, hended, hline⟩ :=
    Lines.lineStart_split newline (bytes.take offset)
  have hlength : before.length = startOf bytes offset := hbefore
  have hcount : (bytes.take offset).count newline = before.count newline := by
    rw [htake, List.count_append, List.count_eq_zero_of_not_mem hline, Nat.add_zero]
  have hbound : before.count newline ≤ startOf bytes offset := hlength ▸ List.count_le_length
  have hskip : skipLines (before.count newline) bytes = startOf bytes offset := by
    have hbytes : bytes = before ++ (line ++ bytes.drop offset) := by
      rw [← List.append_assoc, ← htake, List.take_append_drop]
    conv_lhs => rw [hbytes]
    rw [skipLines_count hended, hlength]
  rw [locate_eq hlt, placeOf_eq hoffset]
  dsimp only
  rw [hcount, lineColToOffset]
  have hwhole (hlast : offset = 2 ^ 32 - 1) : bytes.take offset = bytes :=
    List.take_of_length_le (by omega)
  have hnone (hlast : offset = 2 ^ 32 - 1) : startOf bytes offset = 0 ↔ newline ∉ bytes := by
    rw [startOf, hwhole hlast]
    exact ⟨fun hzero hmem => Nat.ne_of_gt (Lines.lineStart_pos hmem) hzero,
      Lines.lineStart_of_notMem⟩
  have hall (hlast : offset = 2 ^ 32 - 1) : before.count newline = offset ↔
      ∀ byte ∈ bytes, byte = newline := by
    have hlong : offset = bytes.length := by omega
    rw [← hcount, hwhole hlast, hlong, List.count_eq_length]
    exact forall₂_congr fun _ _ => eq_comm
  by_cases hbad : offset = 2 ^ 32 - 1 ∧ (newline ∉ bytes ∨ ∀ byte ∈ bytes, byte = newline)
  · -- One of the two is 0, and the other leads to the start of the buffer.
    refine iff_of_false (fun heq => ?_) (not_not.2 hbad)
    obtain ⟨hlast, hbad⟩ := hbad
    rw [← hnone hlast, ← hall hlast] at hbad
    have hsums : u32 (1 + before.count newline) - 1 = 0 ∧
        u32 (offset - startOf bytes offset + 1) - 1 = 0 := by
      unfold u32
      omega
    rw [hsums.1, hsums.2, skipLines] at heq
    omega
  · refine iff_of_true ?_ hbad
    have hfew : 1 + before.count newline < 2 ^ 32 := by
      by_contra hmany
      have hlast : offset = 2 ^ 32 - 1 := by omega
      exact hbad ⟨hlast, .inr ((hall hlast).1 (by omega))⟩
    have hnear : offset - startOf bytes offset + 1 < 2 ^ 32 := by
      by_contra hfar
      have hlast : offset = 2 ^ 32 - 1 := by omega
      exact hbad ⟨hlast, .inl ((hnone hlast).1 (by omega))⟩
    rw [u32_of_lt hfew, u32_of_lt hnear, Nat.add_sub_cancel_left, hskip, Nat.add_sub_cancel,
      Nat.add_sub_cancel' hstart, Nat.mod_eq_of_lt hlt, Nat.min_eq_left hoffset]

end

/-- **Lines and columns are those of the offset**: they lead back to it and lie on the line that is
extracted, in every buffer but the longest ones of one line, or of newlines alone, at their end. -/
theorem locate_inverse_iff {bytes : Bytes} {offset : Nat} (hsize : bytes.length < 2 ^ 32)
    (hoffset : offset ≤ bytes.length) :
    (lineColToOffset bytes (locate bytes offset).line (locate bytes offset).col = offset ∧
      OnLine bytes offset (locate bytes offset)) ↔
        ¬ (offset = 2 ^ 32 - 1 ∧ (newline ∉ bytes ∨ ∀ byte ∈ bytes, byte = newline)) := by
  rw [lineColToOffset_locate_iff hsize hoffset]
  exact ⟨fun h => h.1, fun h => ⟨h, locate_onLine hsize hoffset⟩⟩

theorem locate_newlines : lineColToOffset (printed "a\n\nb\n") 3 1 = 3 ∧
    OnLine (printed "a\n\nb\n") 3 ⟨3, 1, printed "b"⟩ :=
  (@locate_inverse_iff (printed "a\n\nb\n") 3 (by decide) (by decide)).2 (by decide)

/-- A buffer of `2 ^ 32 - 1` bytes without a newline: the column at its end comes to 0. -/
theorem longLine_inverse : ¬ (lineColToOffset (List.replicate (2 ^ 32 - 1) 'a'.toUInt8)
      (locate (List.replicate (2 ^ 32 - 1) 'a'.toUInt8) (2 ^ 32 - 1)).line
      (locate (List.replicate (2 ^ 32 - 1) 'a'.toUInt8) (2 ^ 32 - 1)).col = 2 ^ 32 - 1) := by
  rw [lineColToOffset_locate_iff, not_not]
  · refine ⟨rfl, .inl fun hmem => ?_⟩
    exact absurd (List.eq_of_mem_replicate hmem) (by decide)
  · rw [List.length_replicate]
    decide
  · rw [List.length_replicate]

end Alcy.Pkg
