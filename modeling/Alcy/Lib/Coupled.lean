import Alcy.Lib.Traced

/-! # Two computations side by side

`Coupled` compares a run with a run of another computation, from related states: the second one logs
what the first one logs, renamed, and they stop together. Only runs of the first one that log
nothing but `K` count, so what the states are not related on may be left open. The rules follow the
ways computations are composed.
-/
namespace Alcy.Lib

open Traced

variable {σ ε κ α β γ δ : Type}

/-! ## Coupling -/

section
variable (K : ε → Prop) (ren : ε → ε)

def Coupled (R R' : σ → σ → Prop) (m : Traced σ ε α) (m' : Traced σ ε β) (Q : α → β → Prop) :
    Prop :=
  ∀ st st', R st st' → (∀ e ∈ (m st).log, K e) → (m' st').log = (m st).log.map ren ∧
    Option.Rel (fun x y => Q x.1 y.1 ∧ R' x.2 y.2) (m st).result (m' st').result

end

namespace Coupled

variable {K : ε → Prop} {ren : ε → ε} {R R' R'' : σ → σ → Prop} {Q : α → β → Prop}
  {Q' : γ → δ → Prop}

theorem pure {a : α} {b : β} (h : Q a b) :
    Coupled K ren R R (pure a : Traced σ ε α) (pure b : Traced σ ε β) Q :=
  fun _ _ hr _ => ⟨rfl, .some ⟨h, hr⟩⟩

theorem stop : Coupled K ren R R' (Traced.stop : Traced σ ε α) (Traced.stop : Traced σ ε β) Q :=
  fun _ _ _ _ => ⟨rfl, .none⟩

theorem get : Coupled K ren R R (Traced.get : Traced σ ε σ) Traced.get R :=
  fun _ _ hr _ => ⟨rfl, .some ⟨hr, hr⟩⟩

theorem tell {e e' : ε} {Q : Unit → Unit → Prop} (h : K e → e' = ren e) (hq : Q () ()) :
    Coupled K ren R R (Traced.tell e : Traced σ ε Unit) (Traced.tell e') Q := by
  intro st st' hr hk
  have he := h (hk e (List.mem_singleton_self e))
  exact ⟨by simp [Traced.tell, he], .some ⟨hq, hr⟩⟩

theorem modify {S : σ → σ → Prop} {f f' : σ → σ} {Q : Unit → Unit → Prop}
    (h : ∀ st st', R st st' → S (f st) (f' st')) (hq : Q () ()) :
    Coupled K ren R S (Traced.modify f : Traced σ ε Unit) (Traced.modify f') Q :=
  fun st st' hr _ => ⟨rfl, .some ⟨hq, h st st' hr⟩⟩

theorem weaken {R₁ R₁' : σ → σ → Prop} {Q₁ : α → β → Prop} {m : Traced σ ε α} {m' : Traced σ ε β}
    (h : Coupled K ren R R' m m' Q) (hr : ∀ st st', R₁ st st' → R st st')
    (hr' : ∀ st st', R' st st' → R₁' st st') (hq : ∀ a b, Q a b → Q₁ a b) :
    Coupled K ren R₁ R₁' m m' Q₁ := by
  intro st st' hrel hk
  obtain ⟨hlog, hres⟩ := h st st' (hr st st' hrel) hk
  refine ⟨hlog, ?_⟩
  generalize (m st).result = x at hres
  generalize (m' st').result = y at hres
  cases hres with
  | some hx => exact .some ⟨hq _ _ hx.1, hr' _ _ hx.2⟩
  | none => exact .none

/-- **Sequencing.** -/
theorem bind {m : Traced σ ε α} {m' : Traced σ ε β} {k : α → Traced σ ε γ}
    {k' : β → Traced σ ε δ} (hm : Coupled K ren R R' m m' Q)
    (hk : ∀ a b, Q a b → Coupled K ren R' R'' (k a) (k' b) Q') :
    Coupled K ren R R'' (m >>= k) (m' >>= k') Q' := by
  intro st st' hr hlog
  rcases bind_cases (m := m) (k := k) st with ⟨hres, h⟩ | ⟨a, st₁, hres, h⟩ <;>
    rw [h] at hlog ⊢
  · obtain ⟨hl, hrel⟩ := hm st st' hr hlog
    rw [hres] at hrel
    cases hres' : (m' st').result with
    | some x =>
      rw [hres'] at hrel
      cases hrel
    | none =>
      rcases bind_cases (m := m') (k := k') st' with ⟨_, h'⟩ | ⟨b, st₁', hb, _⟩
      · rw [h']
        exact ⟨hl, .none⟩
      · rw [hres'] at hb
        cases hb
  · obtain ⟨hlm, hlk⟩ := List.forall_mem_append.1 hlog
    obtain ⟨hl, hrel⟩ := hm st st' hr hlm
    rw [hres] at hrel
    rcases bind_cases (m := m') (k := k') st' with ⟨hb, _⟩ | ⟨b, st₁', hb, h'⟩
    · rw [hb] at hrel
      cases hrel
    · rw [hb] at hrel
      cases hrel with
      | some hx =>
        obtain ⟨hl', hrel'⟩ := hk a b hx.1 st₁ st₁' hx.2 hlk
        rw [h']
        refine ⟨?_, hrel'⟩
        rw [hl, hl', List.map_append]

theorem forM {l : List κ} {f f' : κ → Traced σ ε Unit} {Q : Unit → Unit → Prop}
    (h : ∀ x ∈ l, Coupled K ren R R (f x) (f' x) fun _ _ => True) (hq : Q () ()) :
    Coupled K ren R R (l.forM f) (l.forM f') Q := by
  induction l with
  | nil => exact .pure hq
  | cons x l ih =>
    have hx := h x (List.mem_cons_self ..)
    exact hx.bind fun _ _ _ => ih fun y hy => h y (List.mem_cons_of_mem _ hy)

theorem mapM {l : List κ} {f : κ → Traced σ ε α} {f' : κ → Traced σ ε β}
    (h : ∀ x ∈ l, Coupled K ren R R (f x) (f' x) Q) :
    Coupled K ren R R (l.mapM f) (l.mapM f') (List.Forall₂ Q) := by
  induction l with
  | nil => exact .pure .nil
  | cons x l ih =>
    rw [List.mapM_cons, List.mapM_cons]
    have hx := h x (List.mem_cons_self ..)
    refine hx.bind fun a b hab => ?_
    refine (ih fun y hy => h y (List.mem_cons_of_mem _ hy)).bind fun as bs hs => ?_
    exact .pure (.cons hab hs)

end Coupled

end Alcy.Lib
