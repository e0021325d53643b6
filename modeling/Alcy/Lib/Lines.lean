import Mathlib.Data.List.TakeWhile

/-! # Lines

A list cut into lines by a mark that ends each of them. A place in the list lies on the line that
begins behind the last mark before it.
-/
namespace Alcy.Lib.Lines

variable {α : Type} [DecidableEq α] (mark : α)

/-- Where the last line of a list begins. -/
def lineStart : List α → Nat
  | [] => 0
  | a :: rest => if mark ∈ rest then lineStart rest + 1 else if a = mark then 1 else 0

/-- What stands before a line: nothing, or a mark at its end. -/
def Ended (before : List α) : Prop := before = [] ∨ before.getLast? = some mark

/-- What stands behind a line: nothing, or a mark in front. -/
def Begun (after : List α) : Prop := after = [] ∨ after.head? = some mark

variable {mark} {list : List α}

theorem lineStart_of_notMem (h : mark ∉ list) : lineStart mark list = 0 := by
  cases list with
  | nil => rfl
  | cons a rest =>
    rw [List.mem_cons, not_or] at h
    rw [lineStart, if_neg h.2, if_neg fun heq => h.1 heq.symm]

theorem lineStart_pos (h : mark ∈ list) : 0 < lineStart mark list := by
  cases list with
  | nil => cases h
  | cons a rest =>
    rw [lineStart]
    split
    · exact Nat.succ_pos _
    · next hrest =>
      rw [if_pos ((List.mem_cons.1 h).resolve_right hrest).symm]
      exact Nat.one_pos

theorem lineStart_le (mark : α) (list : List α) : lineStart mark list ≤ list.length := by
  induction list with
  | nil => exact Nat.le_refl 0
  | cons a rest ih =>
    rw [lineStart, List.length_cons]
    split
    · exact Nat.succ_le_succ ih
    · split
      · exact Nat.succ_le_succ (Nat.zero_le _)
      · exact Nat.zero_le _

/-- **The last line** holds no mark, and one ends what stands before it. -/
theorem lineStart_split (mark : α) (list : List α) : ∃ before line, list = before ++ line ∧
    before.length = lineStart mark list ∧ Ended mark before ∧ mark ∉ line := by
  induction list with
  | nil => exact ⟨[], [], rfl, rfl, .inl rfl, List.not_mem_nil⟩
  | cons a rest ih =>
    rw [lineStart]
    split
    · next hrest =>
      obtain ⟨before, line, rfl, hlength, hended, hline⟩ := ih
      refine ⟨a :: before, line, rfl, congrArg Nat.succ hlength, .inr ?_, hline⟩
      cases before with
      | nil => exact absurd hrest hline
      | cons b before => exact (List.getLast?_cons_cons ..).trans (hended.resolve_left nofun)
    · next hrest =>
      split
      · next heq => exact ⟨[a], rest, rfl, rfl, .inr (congrArg some heq), hrest⟩
      · next hne =>
        refine ⟨[], a :: rest, rfl, rfl, .inl rfl, fun hmem => ?_⟩
        exact (List.mem_cons.1 hmem).elim (fun heq => hne heq.symm) hrest

/-- The line that begins at a place ends before the next mark. -/
def lineStop (mark : α) (list : List α) (start : Nat) : Nat :=
  start + ((list.drop start).takeWhile (· ≠ mark)).length

/-- **The line from a place on** holds no mark, and one begins what stands behind it. -/
theorem takeWhile_split (mark : α) (list : List α) : ∃ line after, list = line ++ after ∧
    line = list.takeWhile (· ≠ mark) ∧ Begun mark after ∧ mark ∉ line := by
  refine ⟨_, list.dropWhile (· ≠ mark), List.takeWhile_append_dropWhile.symm, rfl, ?_, ?_⟩
  · cases h : list.dropWhile (· ≠ mark) with
    | nil => exact .inl rfl
    | cons a rest =>
      have hhead := List.head_dropWhile_not (· ≠ mark) (h ▸ List.cons_ne_nil a rest)
      simp only [h, List.head_cons, decide_eq_false_iff_not, not_not] at hhead
      exact .inr (congrArg some hhead)
  · intro hmem
    have hne := List.mem_takeWhile_imp hmem
    exact of_decide_eq_true hne rfl

end Alcy.Lib.Lines
