import Mathlib.Data.List.Forall2

/-! # Programs that run to the end

A program over a state that may get stuck. A frame is what every part of it keeps: an invariant of
the state, and a relation between the state it starts in and the one it leaves. `Runs` says that the
program finishes, inside the frame, with what is claimed of its result; there is one rule for each
way to put programs together.
-/
namespace Alcy.Lib.Total

variable {σ α β κ : Type}

/-- What every part of a program keeps. -/
structure Frame (σ : Type) where
  inv : σ → Prop
  rel : σ → σ → Prop
  refl : ∀ s, rel s s
  trans : ∀ {s u v}, rel s u → rel u v → rel s v

/-- From `s` the program finishes, keeps the frame, and its result and last state are in `Q`. -/
def Runs (F : Frame σ) (m : StateT σ Option α) (s : σ) (Q : α → σ → Prop) : Prop :=
  ∃ a s', m s = some (a, s') ∧ F.inv s' ∧ F.rel s s' ∧ Q a s'

variable {F : Frame σ} {s : σ} {Q : α → σ → Prop}

/-- A step whose outcome is known. -/
theorem bind_of_eq {m : StateT σ Option α} {k : α → StateT σ Option β} {a : α} {s s' : σ}
    (h : m s = some (a, s')) : (m >>= k) s = k a s' := by
  show (m s).bind (fun r => k r.1 r.2) = _
  rw [h, Option.bind_some]

namespace Runs

theorem mono {Q' : α → σ → Prop} {m : StateT σ Option α} (h : Runs F m s Q)
    (hq : ∀ a s', F.inv s' → F.rel s s' → Q a s' → Q' a s') : Runs F m s Q' := by
  obtain ⟨a, s', hm, hi, hr, ha⟩ := h
  exact ⟨a, s', hm, hi, hr, hq a s' hi hr ha⟩

/-- A run in another frame, for which what the other one asks is shown of the outcome. -/
theorem reframe {G : Frame σ} {Q' : α → σ → Prop} {m : StateT σ Option α} (h : Runs F m s Q)
    (hq : ∀ a s', m s = some (a, s') → F.inv s' → F.rel s s' → Q a s' →
      G.inv s' ∧ G.rel s s' ∧ Q' a s') : Runs G m s Q' := by
  obtain ⟨a, s', hm, hi, hr, ha⟩ := h
  exact ⟨a, s', hm, hq a s' hm hi hr ha⟩

/-- What is shown of a run in one frame is known of it in every other one. -/
theorem and {G : Frame σ} {Q' : α → σ → Prop} {m : StateT σ Option α} (h : Runs F m s Q)
    (h' : Runs G m s Q') : Runs F m s fun a s' => Q a s' ∧ Q' a s' :=
  h.reframe fun a s' hm hi hr ha => by
    obtain ⟨a', s'', hm', -, -, ha'⟩ := h'
    cases hm.symm.trans hm'
    exact ⟨hi, hr, ha, ha'⟩

theorem pure {a : α} (hs : F.inv s) (hq : Q a s) : Runs F (pure a) s Q :=
  ⟨a, s, rfl, hs, F.refl s, hq⟩

/-- The second program runs from where the first one stops. -/
theorem bind {m : StateT σ Option α} {k : α → StateT σ Option β} {Q' : β → σ → Prop}
    (h : Runs F m s Q)
    (hk : ∀ a s', F.inv s' → F.rel s s' → Q a s' → Runs F (k a) s' Q') :
    Runs F (m >>= k) s Q' := by
  obtain ⟨a, u, hm, hi, hr, ha⟩ := h
  obtain ⟨b, v, hkb, hi', hr', hb⟩ := hk a u hi hr ha
  exact ⟨b, v, (bind_of_eq hm).trans hkb, hi', F.trans hr hr', hb⟩

/-- A program that reads the state goes on with the state it is in. -/
theorem get {k : σ → StateT σ Option β} {Q' : β → σ → Prop} (h : Runs F (k s) s Q') :
    Runs F (MonadState.get >>= k) s Q' := h

/-- A value that is there. -/
theorem lift {o : Option α} {a : α} {k : α → StateT σ Option β} {Q' : β → σ → Prop}
    (ho : o = some a) (h : Runs F (k a) s Q') : Runs F ((liftM o : StateT σ Option α) >>= k) s Q' := by
  subst ho
  exact h

/-- A step that is computed. -/
theorem of_eq {m : StateT σ Option α} {a : α} {u : σ} (hm : m s = some (a, u))
    (hi : F.inv u) (hr : F.rel s u) (hq : Q a u) : Runs F m s Q :=
  ⟨a, u, hm, hi, hr, hq⟩

/-- **A loop**: each turn establishes its own fact, and no later turn takes it back. -/
theorem forM {f : κ → StateT σ Option Unit} {P : κ → σ → Prop} {l : List κ}
    (stable : ∀ x s s', F.rel s s' → P x s → P x s')
    (h : ∀ x ∈ l, ∀ u, F.inv u → F.rel s u → Runs F (f x) u fun _ s' => P x s') (hs : F.inv s) :
    Runs F (l.forM f) s fun _ s' => ∀ x ∈ l, P x s' := by
  induction l generalizing s with
  | nil => exact .pure hs (by simp)
  | cons x l ih =>
    refine (h x (List.mem_cons_self ..) s hs (F.refl s)).bind fun _ u hu hr hx => ?_
    refine (ih (fun y hy v hv hv' => h y (List.mem_cons_of_mem _ hy) v hv (F.trans hr hv'))
      hu).mono fun _ v _ hv hl => ?_
    intro y hy
    rcases List.mem_cons.1 hy with rfl | hy
    · exact stable _ _ _ hv hx
    · exact hl y hy

/-- A traversal: what is claimed of each result holds of all of them at the end. -/
theorem mapM {f : κ → StateT σ Option β} {P : κ → β → σ → Prop} {l : List κ}
    (stable : ∀ x b s s', F.rel s s' → P x b s → P x b s')
    (h : ∀ x ∈ l, ∀ u, F.inv u → F.rel s u → Runs F (f x) u (P x)) (hs : F.inv s) :
    Runs F (l.mapM f) s fun bs s' => List.Forall₂ (fun x b => P x b s') l bs := by
  induction l generalizing s with
  | nil => exact .pure hs .nil
  | cons x l ih =>
    rw [List.mapM_cons]
    refine (h x (List.mem_cons_self ..) s hs (F.refl s)).bind fun b u hu hr hb => ?_
    refine (ih (fun y hy v hv hv' => h y (List.mem_cons_of_mem _ hy) v hv (F.trans hr hv'))
      hu).bind fun bs v hv hr' hbs => ?_
    exact .pure hv (.cons (stable _ _ _ _ hr' hb) hbs)

end Runs

end Alcy.Lib.Total
