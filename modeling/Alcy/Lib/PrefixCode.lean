import Mathlib.Data.List.Basic

/-! # Prefix codes

A writer whose output says by itself where it ends: two texts that begin with written values begin
with the same value, and go on alike. Such writers can be put one after the other, and repeated.
-/
namespace Alcy.Lib.PrefixCode

variable {α β γ : Type}

/-- What is written tells the value, and where it ends. -/
def Prefixed (write : α → List γ) : Prop :=
  ∀ a b rest rest', write a ++ rest = write b ++ rest' → a = b ∧ rest = rest'

variable {write : α → List γ}

/-- A writer that can be read back. -/
theorem prefixed_of_read {read : List γ → Option (α × List γ)}
    (h : ∀ a rest, read (write a ++ rest) = some (a, rest)) : Prefixed write := by
  intro a b rest rest' heq
  have hread := h a rest
  rw [heq, h b rest'] at hread
  cases hread
  exact ⟨rfl, rfl⟩

/-- Fixed text before and after the value. -/
theorem Prefixed.framed (h : Prefixed write) (before after : List γ) :
    Prefixed fun a => before ++ (write a ++ after) := by
  intro a b rest rest' heq
  simp only [List.append_assoc] at heq
  obtain ⟨hvalue, hrest⟩ := h a b _ _ (List.append_cancel_left heq)
  exact ⟨hvalue, List.append_cancel_left hrest⟩

/-- One value after the other. -/
theorem Prefixed.append (h : Prefixed write) {write' : β → List γ} (h' : Prefixed write') :
    Prefixed fun p : α × β => write p.1 ++ write' p.2 := by
  rintro ⟨a, b⟩ ⟨a', b'⟩ rest rest' heq
  simp only [List.append_assoc] at heq
  obtain ⟨rfl, hsecond⟩ := h a a' _ _ heq
  obtain ⟨rfl, hrest⟩ := h' b b' _ _ hsecond
  exact ⟨rfl, hrest⟩

theorem Prefixed.comap (h : Prefixed write) {f : β → α} (hf : Function.Injective f) :
    Prefixed fun b => write (f b) := by
  intro b b' rest rest' heq
  obtain ⟨hvalue, hrest⟩ := h _ _ _ _ heq
  exact ⟨hf hvalue, hrest⟩

theorem until_inj {stop : γ} {text text' rest rest' : List γ} (h : stop ∉ text) (h' : stop ∉ text')
    (heq : text ++ stop :: rest = text' ++ stop :: rest') : text = text' ∧ rest = rest' := by
  induction text generalizing text' with
  | nil =>
    cases text' with
    | nil => exact ⟨rfl, (List.cons.inj heq).2⟩
    | cons c text' => exact absurd (.head _) ((List.cons.inj heq).1 ▸ h')
  | cons c text ih =>
    cases text' with
    | nil => exact absurd (.head _) ((List.cons.inj heq).1 ▸ h)
    | cons c' text' =>
      obtain ⟨hhead, htail⟩ := List.cons.inj heq
      obtain ⟨htext, hrest⟩ := ih (fun hmem => h (.tail _ hmem)) (fun hmem => h' (.tail _ hmem))
        htail
      exact ⟨congrArg₂ List.cons hhead htext, hrest⟩

/-- A mark that no value contains. -/
theorem prefixed_until {stop : γ} (hinj : Function.Injective write) (hstop : ∀ a, stop ∉ write a) :
    Prefixed fun a => write a ++ [stop] := by
  intro a b rest rest' heq
  simp only [List.append_assoc, List.singleton_append] at heq
  obtain ⟨hvalue, hrest⟩ := until_inj (hstop a) (hstop b) heq
  exact ⟨hinj hvalue, hrest⟩

/-- Values one after the other, up to a mark that none begins with. -/
theorem Prefixed.until (h : Prefixed write) {stop : γ}
    (hstop : ∀ a rest rest', write a ++ rest ≠ stop :: rest') :
    Prefixed fun values : List α => values.flatMap write ++ [stop] := by
  intro values
  induction values with
  | nil =>
    intro values' rest rest' heq
    cases values' with
    | nil => exact ⟨rfl, List.append_cancel_left heq⟩
    | cons a values' =>
      simp only [List.flatMap_cons, List.append_assoc] at heq
      exact absurd heq.symm (hstop a _ rest)
  | cons a values ih =>
    intro values' rest rest' heq
    cases values' with
    | nil =>
      simp only [List.flatMap_cons, List.append_assoc] at heq
      exact absurd heq (hstop a _ rest')
    | cons b values' =>
      simp only [List.flatMap_cons, List.append_assoc] at heq
      obtain ⟨rfl, hmore⟩ := h a b _ _ heq
      obtain ⟨rfl, hrest⟩ := ih values' rest rest' (by simpa only [List.append_assoc] using hmore)
      exact ⟨rfl, hrest⟩

/-- Values that are never empty, up to the end. -/
theorem Prefixed.flatMap (h : Prefixed write) (hne : ∀ a, write a ≠ []) :
    Function.Injective fun values : List α => values.flatMap write := by
  intro values
  induction values with
  | nil =>
    intro values' heq
    cases values' with
    | nil => rfl
    | cons a values' => exact absurd (List.append_eq_nil_iff.1 heq.symm).1 (hne a)
  | cons a values ih =>
    intro values' heq
    cases values' with
    | nil => exact absurd (List.append_eq_nil_iff.1 heq).1 (hne a)
    | cons b values' =>
      obtain ⟨rfl, hrest⟩ := h a b _ _ heq
      rw [ih hrest]

end Alcy.Lib.PrefixCode
