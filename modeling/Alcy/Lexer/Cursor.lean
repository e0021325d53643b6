import Alcy.Lexer.Lexer
import Mathlib.Data.List.Basic
import Mathlib.Data.List.Infix

/-! What the cursor primitives guarantee: reads past the end are zero, a byte that
is not zero is in the input, and `skipWhile` stops inside it, at the first byte
that fails the test. -/
namespace Alcy.Lexer
namespace Source

variable {src : Source}

theorem byte_of_le {i : Nat} (h : src.size ≤ i) : src.byte i = 0 := by
  simp [byte, List.getD_eq_getElem?_getD, List.getElem?_eq_none h]

theorem lt_of_byte_ne {i : Nat} (h : src.byte i ≠ 0) : i < src.size := by
  by_contra hi
  exact h (byte_of_le (Nat.le_of_not_lt hi))

theorem drop_of_lt {i : Nat} (h : i < src.size) :
    src.bytes.drop i = src.byte i :: src.bytes.drop (i + 1) := by
  have h' : i < src.bytes.length := h
  simp [byte, List.getD_eq_getElem?_getD, List.getElem?_eq_getElem h']

theorem headD_drop (i : Nat) : (src.bytes.drop i).headD 0 = src.byte i := by
  simp [byte, List.getD_eq_getElem?_getD, ← List.head?_drop, List.headD_eq_head?_getD]

@[simp] theorem atEnd_eq_true {pos : Nat} : src.atEnd pos = true ↔ src.size ≤ pos := by
  simp [atEnd]

@[simp] theorem atEnd_eq_false {pos : Nat} : src.atEnd pos = false ↔ pos < src.size := by
  simp [atEnd]

/-! ## `skipWhile` -/

theorem skipWhile_of_not {p : UInt8 → Bool} {pos : Nat}
    (h : pos < src.size → p (src.byte pos) = false) : src.skipWhile p pos = pos := by
  rcases Nat.lt_or_ge pos src.size with hp | hp
  · simp [skipWhile, drop_of_lt hp, h hp]
  · have : src.bytes.drop pos = [] := List.drop_eq_nil_of_le hp
    simp [skipWhile, this]

theorem skipWhile_of_pos {p : UInt8 → Bool} {pos : Nat} (hlt : pos < src.size)
    (hp : p (src.byte pos) = true) : src.skipWhile p pos = src.skipWhile p (pos + 1) := by
  simp only [skipWhile, drop_of_lt hlt, List.takeWhile_cons, hp, if_true, List.length_cons]
  omega

/-- **Induction along a scan.** What holds at its start and is kept by each byte
that passes the test holds at its end. -/
theorem skipWhile_induct {p : UInt8 → Bool} {P : Nat → Prop} {pos : Nat} (h : P pos)
    (hstep : ∀ i, i < src.size → p (src.byte i) = true → P i → P (i + 1)) :
    P (src.skipWhile p pos) := by
  suffices hk : ∀ k pos, src.size - pos = k → P pos → P (src.skipWhile p pos) from hk _ pos rfl h
  intro k
  induction k with
  | zero =>
    intro pos hk h
    rwa [skipWhile_of_not (fun hlt => by omega)]
  | succ k ih =>
    intro pos hk h
    have hlt : pos < src.size := by omega
    cases hp : p (src.byte pos) with
    | false => rwa [skipWhile_of_not (fun _ => hp)]
    | true =>
      rw [skipWhile_of_pos hlt hp]
      exact ih (pos + 1) (by omega) (hstep pos hlt hp h)

theorem le_skipWhile (src : Source) (p : UInt8 → Bool) (pos : Nat) : pos ≤ src.skipWhile p pos :=
  Nat.le_add_right _ _

theorem skipWhile_le {p : UInt8 → Bool} {pos : Nat} (h : pos ≤ src.size) :
    src.skipWhile p pos ≤ src.size :=
  skipWhile_induct (P := fun i => i ≤ src.size) h fun _ hi _ _ => hi

theorem skipWhile_stop (p : UInt8 → Bool) (pos : Nat) :
    src.skipWhile p pos < src.size → p (src.byte (src.skipWhile p pos)) = false := by
  suffices hk : ∀ k pos, src.size - pos = k → src.skipWhile p pos < src.size →
      p (src.byte (src.skipWhile p pos)) = false from hk _ pos rfl
  intro k
  induction k with
  | zero =>
    intro pos hk hlt
    have := src.le_skipWhile p pos
    omega
  | succ k ih =>
    intro pos hk hlt
    cases hp : p (src.byte pos) with
    | false => rwa [skipWhile_of_not (fun _ => hp)]
    | true =>
      rw [skipWhile_of_pos (by omega) hp] at hlt ⊢
      exact ih (pos + 1) (by omega) hlt

/-- Where a scan stops, the test fails, when it fails past the end. -/
theorem skipWhile_fails {p : UInt8 → Bool} (h0 : p 0 = false) (pos : Nat) :
    p (src.byte (src.skipWhile p pos)) = false := by
  rcases Nat.lt_or_ge (src.skipWhile p pos) src.size with hlt | hge
  · exact skipWhile_stop p pos hlt
  · rw [byte_of_le hge, h0]

/-- Every byte that was skipped passed the test. -/
theorem skipWhile_all {p : UInt8 → Bool} {pos : Nat} :
    ∀ i, pos ≤ i → i < src.skipWhile p pos → p (src.byte i) = true :=
  skipWhile_induct (P := fun stop => ∀ i, pos ≤ i → i < stop → p (src.byte i) = true)
    (fun i h1 h2 => by omega) fun stop _ hp h i h1 h2 => by
      rcases Nat.lt_succ_iff_lt_or_eq.mp h2 with hi | rfl
      · exact h i h1 hi
      · exact hp

/-! ## Slices -/

theorem slice_self (i : Nat) : src.slice i i = [] := by simp [slice]

theorem slice_cons {start stop : Nat} (h : start < stop) (hs : stop ≤ src.size) :
    src.slice start stop = src.byte start :: src.slice (start + 1) stop := by
  obtain ⟨k, rfl⟩ : ∃ k, stop = start + 1 + k := ⟨stop - (start + 1), by omega⟩
  simp only [slice, drop_of_lt (show start < src.size by omega)]
  rw [show start + 1 + k - start = k + 1 by omega, show start + 1 + k - (start + 1) = k by omega,
    List.take_succ_cons]

theorem slice_length {start stop : Nat} (hs : stop ≤ src.size) :
    (src.slice start stop).length = stop - start := by
  have hsize : src.size = src.bytes.length := rfl
  rw [slice, List.length_take, List.length_drop]
  omega

theorem slice_append {a b c : Nat} (hab : a ≤ b) (hbc : b ≤ c) :
    src.slice a b ++ src.slice b c = src.slice a c := by
  unfold Source.slice
  obtain ⟨i, rfl⟩ := Nat.exists_eq_add_of_le hab
  obtain ⟨j, rfl⟩ := Nat.exists_eq_add_of_le hbc
  rw [show a + i + j - a = i + j by omega, show a + i - a = i by omega,
    show a + i + j - (a + i) = j by omega, List.take_add, List.drop_drop]

theorem byte_mem_slice {start stop i : Nat} (hs : stop ≤ src.size) (h1 : start ≤ i)
    (h2 : i < stop) : src.byte i ∈ src.slice start stop := by
  rw [← slice_append h1 (Nat.le_of_lt h2), slice_cons h2 hs]
  exact List.mem_append_right _ List.mem_cons_self

/-- The last byte of a slice. -/
theorem getLast?_slice {start stop : Nat} (hlt : start < stop) (hs : stop ≤ src.size) :
    (src.slice start stop).getLast? = some (src.byte (stop - 1)) := by
  have hlast : src.slice (stop - 1) stop = [src.byte (stop - 1)] := by
    rw [slice_cons (by omega) hs, show stop - 1 + 1 = stop by omega, slice_self]
  rw [← slice_append (show start ≤ stop - 1 by omega) (Nat.sub_le stop 1), hlast,
    List.getLast?_concat]

theorem mem_slice {start stop : Nat} {c : UInt8} (hs : stop ≤ src.size)
    (h : c ∈ src.slice start stop) : ∃ i, start ≤ i ∧ i < stop ∧ src.byte i = c := by
  suffices hk : ∀ k start, stop - start = k → c ∈ src.slice start stop →
      ∃ i, start ≤ i ∧ i < stop ∧ src.byte i = c from hk _ start rfl h
  intro k
  induction k with
  | zero =>
    intro start hk h
    simp [slice, hk] at h
  | succ k ih =>
    intro start hk h
    rw [slice_cons (by omega) hs] at h
    rcases List.mem_cons.mp h with rfl | h
    · exact ⟨start, Nat.le_refl _, by omega, rfl⟩
    · obtain ⟨i, h1, h2, h3⟩ := ih (start + 1) (by omega) h
      exact ⟨i, by omega, h2, h3⟩

/-! ## The text at a position -/

/-- The bytes from `pos` on begin with the text. -/
def TextAt (src : Source) (pos : Nat) (text : List UInt8) : Prop := text <+: src.bytes.drop pos

theorem textAt_nil (src : Source) (pos : Nat) : src.TextAt pos [] := List.nil_prefix

theorem textAt_cons {pos : Nat} {c : UInt8} {text : List UInt8} :
    src.TextAt pos (c :: text) ↔ pos < src.size ∧ src.byte pos = c ∧ src.TextAt (pos + 1) text := by
  unfold TextAt
  rcases Nat.lt_or_ge pos src.size with hlt | hge
  · rw [drop_of_lt hlt, List.cons_prefix_cons]
    exact ⟨fun h => ⟨hlt, h.1.symm, h.2⟩, fun h => ⟨h.2.1.symm, h.2.2⟩⟩
  · rw [List.drop_eq_nil_of_le hge, List.prefix_nil]
    exact ⟨fun h => (nomatch h), fun h => absurd h.1 (Nat.not_lt_of_ge hge)⟩

theorem textAt_append {text text' : List UInt8} {pos : Nat} : src.TextAt pos (text ++ text') ↔
    src.TextAt pos text ∧ src.TextAt (pos + text.length) text' := by
  induction text generalizing pos with
  | nil => simp [textAt_nil]
  | cons c text ih =>
    rw [List.cons_append, textAt_cons, textAt_cons, ih, List.length_cons, Nat.add_right_comm,
      ← Nat.add_assoc, and_assoc, and_assoc]

theorem TextAt.le {pos : Nat} {text : List UInt8} (h : src.TextAt pos text)
    (hpos : pos ≤ src.size) : pos + text.length ≤ src.size := by
  have hle := h.length_le
  rw [List.length_drop] at hle
  have hsize : src.size = src.bytes.length := rfl
  omega

theorem textAt_slice {start stop : Nat} : src.TextAt start (src.slice start stop) :=
  List.take_prefix _ _

theorem TextAt.slice {pos : Nat} {text : List UInt8} (h : src.TextAt pos text) :
    src.slice pos (pos + text.length) = text := by
  rw [Source.slice, Nat.add_sub_cancel_left]
  exact (List.prefix_iff_eq_take.mp h).symm

/-- A scan passes a text of bytes that pass the test. -/
theorem TextAt.skipWhile {p : UInt8 → Bool} {pos : Nat} {text : List UInt8}
    (h : src.TextAt pos text) (hp : ∀ c ∈ text, p c = true) :
    src.skipWhile p pos = src.skipWhile p (pos + text.length) := by
  induction text generalizing pos with
  | nil => rfl
  | cons c text ih =>
    obtain ⟨hlt, hc, htext⟩ := textAt_cons.mp h
    rw [skipWhile_of_pos hlt (hc ▸ hp c List.mem_cons_self),
      ih htext fun d hd => hp d (List.mem_cons_of_mem _ hd), List.length_cons,
      Nat.add_right_comm, ← Nat.add_assoc]

end Source
end Alcy.Lexer
