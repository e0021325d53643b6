import Mathlib.Data.Set.Insert

/-! # Definite assignment

Which names are assigned when control comes to a block, whatever way it came: those that every path
from the entry assigns. The sets are found by what they do along an edge (`assigned_of_edge`), and
any family of sets that does the same is an underestimate (`assigned_of_closed`), which is how a
concrete graph is checked. Names may be made where they are assigned or taken over from a name that
is assigned already. What is assigned then never has the name that is about to be made
(`name_ne_of_assigned`), also when control comes to a block again.
-/
namespace Alcy.Lib.Assignment

variable {β ν : Type} (edge : β → β → Prop) (entry : β) (assigns : β → ν → Prop)

/-- A way from the entry to a block, by the blocks it has left, the latest first. -/
inductive Path : List β → β → Prop
  | start : Path [] entry
  | step {left : List β} {b c : β} (before : Path left b) (h : edge b c) : Path (b :: left) c

/-- Every path to `b` assigns `x`. -/
def Assigned (b : β) (x : ν) : Prop := ∀ left, Path edge entry left b → ∃ c ∈ left, assigns c x

variable {edge entry assigns}

/-- Nothing is assigned at the entry. -/
theorem not_assigned_entry (x : ν) : ¬ Assigned edge entry assigns entry x := fun h => by
  obtain ⟨c, hc, _⟩ := h [] .start
  exact List.not_mem_nil hc

/-- **Along an edge**: what is assigned after it was assigned before, or by the block it leaves. -/
theorem assigned_of_edge {b c : β} {x : ν} (h : edge b c)
    (hx : Assigned edge entry assigns c x) : Assigned edge entry assigns b x ∨ assigns b x := by
  by_cases hb : assigns b x
  · exact .inr hb
  · refine .inl fun left hp => ?_
    obtain ⟨d, hd, hdx⟩ := hx _ (hp.step h)
    rcases List.mem_cons.1 hd with rfl | hd
    exacts [absurd hdx hb, ⟨d, hd, hdx⟩]

/-- Sets that are empty at the entry and gain nothing else along an edge hold assigned names. -/
theorem assigned_of_closed {A : β → ν → Prop} (hentry : ∀ x, ¬ A entry x)
    (hedge : ∀ b c, edge b c → ∀ x, A c x → A b x ∨ assigns b x) {b : β} {x : ν} (hx : A b x) :
    Assigned edge entry assigns b x := by
  intro left hp
  induction hp with
  | start => exact absurd hx (hentry x)
  | @step left b c _ h ih =>
    rcases hedge b c h x hx with hx | hx
    · obtain ⟨d, hd, hdx⟩ := ih hx
      exact ⟨d, .tail _ hd, hdx⟩
    · exact ⟨b, List.mem_cons_self, hx⟩

/-! ## First visits -/

/-- A block on a path is come to by a shorter one. -/
theorem Path.shorter {left : List β} {b c : β} (h : Path edge entry left b) (hc : c ∈ left) :
    ∃ left', Path edge entry left' c ∧ left'.length < left.length := by
  induction h with
  | start => exact absurd hc List.not_mem_nil
  | @step left b _ hp _ ih =>
    rcases List.mem_cons.1 hc with rfl | hc
    · exact ⟨left, hp, Nat.lt_succ_self _⟩
    · obtain ⟨left', hp', hlt⟩ := ih hc
      exact ⟨left', hp', Nat.lt_succ_of_lt hlt⟩

/-- A way to a block that has not been there before. -/
theorem Path.exists_first {left : List β} {b : β} (h : Path edge entry left b) :
    ∃ left', Path edge entry left' b ∧ b ∉ left' := by
  by_cases hb : b ∈ left
  · obtain ⟨left', hp, _⟩ := h.shorter hb
    exact hp.exists_first
  · exact ⟨left, h, hb⟩
termination_by left.length

/-! ## Names -/

section
variable {κ : Type} {name : ν → κ} {base : κ → Prop} {makes : β → κ → Prop}

/-- What is assigned has a name that was made on the way, or a base name. -/
theorem made_of_assigned
    (hname : ∀ left b x, Path edge entry left b → assigns b x → base (name x) ∨
      makes b (name x) ∨ ∃ y, Assigned edge entry assigns b y ∧ name y = name x)
    {left : List β} {b : β} (hp : Path edge entry left b) {x : ν}
    (hx : Assigned edge entry assigns b x) : base (name x) ∨ ∃ c ∈ left, makes c (name x) := by
  induction hp generalizing x with
  | start => exact absurd hx (not_assigned_entry x)
  | @step left b c hp h ih =>
    have hbefore {y : ν} (hy : Assigned edge entry assigns b y) :
        base (name y) ∨ ∃ c ∈ b :: left, makes c (name y) :=
      (ih hy).imp_right fun ⟨d, hd, hm⟩ => ⟨d, .tail _ hd, hm⟩
    rcases assigned_of_edge h hx with hx | hx
    · exact hbefore hx
    · rcases hname left b x hp hx with hbase | hmake | ⟨y, hy, heq⟩
      · exact .inl hbase
      · exact .inr ⟨b, List.mem_cons_self, hmake⟩
      · exact heq ▸ hbefore hy

/-- **Before a block, nothing assigned has a name that only this block makes.** -/
theorem name_ne_of_assigned
    (hname : ∀ left b x, Path edge entry left b → assigns b x → base (name x) ∨
      makes b (name x) ∨ ∃ y, Assigned edge entry assigns b y ∧ name y = name x)
    {b : β} {n : κ} (hbase : ¬ base n) (honly : ∀ c, makes c n → c = b) {left : List β}
    (hp : Path edge entry left b) {x : ν} (hx : Assigned edge entry assigns b x) :
    name x ≠ n := by
  rintro rfl
  obtain ⟨left', hp', hfirst⟩ := hp.exists_first
  rcases made_of_assigned hname hp' hx with h | ⟨c, hc, hmake⟩
  · exact hbase h
  · exact hfirst (honly c hmake ▸ hc)

end

end Alcy.Lib.Assignment
