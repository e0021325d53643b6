import Mathlib.Data.List.Basic

/-! # Loops over a worklist

A loop that takes the last entry of a list of work until none is left, where working on an entry may
add others behind the ones that wait. It ends when every entry adds only entries of a lower rank in a
well-founded order, however many; the ranks may be read off a state that grows on the way.
-/
namespace Alcy.Lib.Worklist

variable {σ α κ : Type}

/-- The loop. The list of work is a stack: its head is taken next. -/
def drain (step : α → σ → List α → σ × List α) : Nat → σ → List α → Option σ
  | 0, _, _ => none
  | _ + 1, s, [] => some s
  | n + 1, s, a :: rest =>
    let next := step a s rest
    drain step n next.1 next.2

variable {step : α → σ → List α → σ × List α}

/-- What every round keeps holds at the end, with no work left. -/
theorem drain_invariant {I : σ → List α → Prop}
    (hstep : ∀ s a rest, I s (a :: rest) → I (step a s rest).1 (step a s rest).2) {n : Nat}
    {s t : σ} {work : List α} (h : drain step n s work = some t) (hs : I s work) : I t [] := by
  induction n generalizing s work with
  | zero => cases h
  | succ n ih =>
    cases work with
    | nil =>
      cases h
      exact hs
    | cons a rest => exact ih h (hstep s a rest hs)

/-! ## The loop ends -/

/-- What makes the loop end: a preorder in which the states grow and in which an entry keeps its
rank, and rounds that add entries of a lower rank only. -/
structure Descends (step : α → σ → List α → σ × List α) (lower : κ → κ → Prop)
    (rank : σ → α → κ → Prop) (grows : σ → σ → Prop) : Prop where
  wf : WellFounded lower
  refl : ∀ s, grows s s
  trans : ∀ s t u, grows s t → grows t u → grows s u
  keeps : ∀ s t a k, grows s t → rank s a k → rank t a k
  round : ∀ s a k rest, rank s a k → ∃ new, (step a s rest).2 = new ++ rest ∧
    grows s (step a s rest).1 ∧ ∀ b ∈ new, ∃ k', lower k' k ∧ rank (step a s rest).1 b k'

variable {lower : κ → κ → Prop} {rank : σ → α → κ → Prop} {grows : σ → σ → Prop}

/-- The loop finishes from the state. -/
def Ends (step : α → σ → List α → σ × List α) (s : σ) (work : List α) : Prop :=
  ∃ n t, drain step n s work = some t

theorem Ends.round {s : σ} {a : α} {rest : List α}
    (h : Ends step (step a s rest).1 (step a s rest).2) : Ends step s (a :: rest) := by
  obtain ⟨n, t, h⟩ := h
  exact ⟨n + 1, t, h⟩

/-- One entry with all that comes of it, when the rest ends from every later state. -/
theorem Descends.entry (h : Descends step lower rank grows) {k : κ} :
    ∀ {s : σ} {a : α} {rest : List α}, rank s a k →
      (∀ t, grows s t → Ends step t rest) → Ends step s (a :: rest) := by
  induction k using h.wf.induction with
  | h k ih =>
    intro s a rest hrank hrest
    obtain ⟨new, hnew, hgrows, hlower⟩ := h.round s a k rest hrank
    refine .round ?_
    rw [hnew]
    have hlist {t : σ} {work : List α} (ht : grows s t)
        (hwork : ∀ b ∈ work, ∃ k', lower k' k ∧ rank t b k') : Ends step t (work ++ rest) := by
      induction work generalizing t with
      | nil => exact hrest t ht
      | cons b work ihw =>
        obtain ⟨⟨k', hk', hb⟩, hwork⟩ := List.forall_mem_cons.1 hwork
        refine ih k' hk' hb fun u hu => ihw (h.trans _ _ _ ht hu) fun c hc => ?_
        obtain ⟨k'', hk'', hrank⟩ := hwork c hc
        exact ⟨k'', hk'', h.keeps _ _ _ _ hu hrank⟩
    exact hlist hgrows hlower

/-- **The loop ends** when every entry has a rank. -/
theorem Descends.ends (h : Descends step lower rank grows) {s : σ} {work : List α}
    (hwork : ∀ a ∈ work, ∃ k, rank s a k) : Ends step s work := by
  induction work generalizing s with
  | nil => exact ⟨1, s, rfl⟩
  | cons a rest ih =>
    obtain ⟨⟨k, hk⟩, hrest⟩ := List.forall_mem_cons.1 hwork
    refine h.entry hk fun t ht => ih fun b hb => ?_
    obtain ⟨k', hk'⟩ := hrest b hb
    exact ⟨k', h.keeps _ _ _ _ ht hk'⟩

end Alcy.Lib.Worklist
