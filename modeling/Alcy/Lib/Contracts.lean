import Mathlib.Data.List.Basic

/-! # Contracts of programs that may fail

A program over a state that may end with an error. A contract says from which states it is judged,
which errors are excluded, and how the state it leaves is related to the one it starts in; there is
one rule for each way to put programs together. For programs that can only be stuck, a relation is
enough.
-/
namespace Alcy.Lib.Contracts

variable {σ ε α β κ : Type}

/-! ## Runs of composed programs -/

/-- The parts of a run. -/
theorem bind_cases (m : StateT σ (Except ε) α) (k : α → StateT σ (Except ε) β) (s : σ) :
    (∃ e, m s = .error e ∧ (m >>= k) s = .error e) ∨
      ∃ a u, m s = .ok (a, u) ∧ (m >>= k) s = k a u := by
  cases h : m s with
  | error e =>
    refine .inl ⟨e, rfl, ?_⟩
    show (m s >>= fun r => k r.1 r.2) = _
    rw [h]
    rfl
  | ok r =>
    refine .inr ⟨r.1, r.2, rfl, ?_⟩
    show (m s >>= fun r => k r.1 r.2) = _
    rw [h]
    rfl

/-- A step whose outcome is known. -/
theorem bind_of_ok {m : StateT σ (Except ε) α} {k : α → StateT σ (Except ε) β} {a : α} {s u : σ}
    (h : m s = .ok (a, u)) : (m >>= k) s = k a u := by
  rcases bind_cases m k s with ⟨e, he, _⟩ | ⟨a', u', ha, hk⟩
  · rw [h] at he
    cases he
  · rw [h] at ha
    cases ha
    exact hk

/-- A composed program that finishes has finished both parts. -/
theorem bind_ok {m : StateT σ (Except ε) α} {k : α → StateT σ (Except ε) β} {b : β} {s v : σ} :
    (m >>= k) s = .ok (b, v) ↔ ∃ a u, m s = .ok (a, u) ∧ k a u = .ok (b, v) := by
  constructor
  · intro h
    rcases bind_cases m k s with ⟨e, _, he⟩ | ⟨a, u, ha, hk⟩
    · rw [h] at he
      cases he
    · exact ⟨a, u, ha, hk.symm.trans h⟩
  · rintro ⟨a, u, ha, hk⟩
    exact (bind_of_ok ha).trans hk

theorem pure_ok {a b : α} {s u : σ} :
    (pure a : StateT σ (Except ε) α) s = .ok (b, u) ↔ a = b ∧ s = u := by
  constructor
  · intro h
    cases h
    exact ⟨rfl, rfl⟩
  · rintro ⟨rfl, rfl⟩
    rfl

/-! ## One run -/

/-- Where the program finishes from this state, `Q` holds of its value and the state it leaves. -/
def Ends (s : σ) (m : StateT σ (Except ε) α) (Q : α → σ → Prop) : Prop :=
  ∀ a u, m s = .ok (a, u) → Q a u

namespace Ends

variable {s : σ} {Q P : α → σ → Prop}

theorem pure {a : α} (h : Q a s) : Ends s (pure a : StateT σ (Except ε) α) Q := by
  intro b u hrun
  obtain ⟨rfl, rfl⟩ := pure_ok.1 hrun
  exact h

theorem get {Q : σ → σ → Prop} (h : Q s s) :
    Ends s (MonadState.get : StateT σ (Except ε) σ) Q := by
  intro b u hrun
  cases hrun
  exact h

theorem bind {m : StateT σ (Except ε) α} {k : α → StateT σ (Except ε) β} {Q : β → σ → Prop}
    (h : Ends s m fun a u => Ends u (k a) Q) : Ends s (m >>= k) Q := by
  intro b v hrun
  obtain ⟨a, u, ha, hk⟩ := bind_ok.1 hrun
  exact h a u ha b v hk

/-- Nothing is used of the first part. -/
theorem after {m : StateT σ (Except ε) α} {k : α → StateT σ (Except ε) β} {Q : β → σ → Prop}
    (h : ∀ a u, Ends u (k a) Q) : Ends s (m >>= k) Q :=
  .bind fun a u _ => h a u

theorem mono {m : StateT σ (Except ε) α} (hm : Ends s m P) (h : ∀ a u, P a u → Q a u) :
    Ends s m Q := fun a u hrun => h a u (hm a u hrun)

end Ends

/-! ## Contracts -/

/-- What every part of a program is held to. -/
structure Contract (σ ε : Type) where
  inv : σ → Prop
  bad : ε → Prop
  rel : σ → σ → Prop
  refl : ∀ s, inv s → rel s s
  trans : ∀ {s u v}, inv s → rel s u → rel u v → rel s v
  stable : ∀ {s u}, inv s → rel s u → inv u

/-- From every state of the contract the program fails in no excluded way, and where it finishes,
its states are related. -/
structure Keeps (C : Contract σ ε) (m : StateT σ (Except ε) α) : Prop where
  fails : ∀ s e, C.inv s → m s = .error e → ¬ C.bad e
  ends : ∀ s a u, C.inv s → m s = .ok (a, u) → C.rel s u

namespace Keeps

variable {C : Contract σ ε}

theorem pure (a : α) : Keeps C (pure a : StateT σ (Except ε) α) where
  fails s e _ h := by cases h
  ends s b u hs h := by
    obtain ⟨_, rfl⟩ := pure_ok.1 h
    exact C.refl s hs

theorem bind {m : StateT σ (Except ε) α} {k : α → StateT σ (Except ε) β} (hm : Keeps C m)
    (hk : ∀ a, Keeps C (k a)) : Keeps C (m >>= k) where
  fails s e hs h := by
    rcases bind_cases m k s with ⟨e', hfail, he⟩ | ⟨a, u, hrun, he⟩
    · rw [he] at h
      cases h
      exact hm.fails s e hs hfail
    · rw [he] at h
      exact (hk a).fails u e (C.stable hs (hm.ends s a u hs hrun)) h
  ends s b v hs h := by
    obtain ⟨a, u, hrun, hrest⟩ := bind_ok.1 h
    have hr := hm.ends s a u hs hrun
    exact C.trans hs hr ((hk a).ends u b v (C.stable hs hr) hrest)

/-- A program that does not fail, with what it does to the state. -/
theorem of_ok {m : StateT σ (Except ε) α} (h : ∀ s, C.inv s → ∃ a u, m s = .ok (a, u) ∧ C.rel s u) :
    Keeps C m where
  fails s e hs he := by
    obtain ⟨a, u, ha, _⟩ := h s hs
    rw [ha] at he
    cases he
  ends s a u hs ha := by
    obtain ⟨b, v, hb, hr⟩ := h s hs
    rw [ha] at hb
    cases hb
    exact hr

theorem get : Keeps C (MonadState.get : StateT σ (Except ε) σ) :=
  .of_ok fun s hs => ⟨s, s, rfl, C.refl s hs⟩

theorem modify {f : σ → σ} (h : ∀ s, C.inv s → C.rel s (f s)) :
    Keeps C (modify f : StateT σ (Except ε) Unit) :=
  .of_ok fun s hs => ⟨(), f s, rfl, h s hs⟩

end Keeps

/-! ## Programs that can be stuck -/

/-- Where the program finishes, `R` relates its states. -/
def Leaves (R : σ → σ → Prop) (m : StateT σ Option α) : Prop :=
  ∀ s a u, m s = some (a, u) → R s u

/-- Both parts of a composed program that finishes. -/
theorem bind_some {m : StateT σ Option α} {k : α → StateT σ Option β} {b : β} {s v : σ} :
    (m >>= k) s = some (b, v) ↔ ∃ a u, m s = some (a, u) ∧ k a u = some (b, v) := by
  show (m s).bind (fun r => k r.1 r.2) = _ ↔ _
  rw [Option.bind_eq_some_iff]
  exact ⟨fun ⟨r, hr, hk⟩ => ⟨r.1, r.2, hr, hk⟩, fun ⟨a, u, ha, hk⟩ => ⟨(a, u), ha, hk⟩⟩

namespace Leaves

variable {R : σ → σ → Prop}

theorem pure [Std.Refl R] (a : α) : Leaves R (pure a : StateT σ Option α) := by
  intro s b u h
  cases h
  exact Std.Refl.refl s

theorem bind [IsTrans σ R] {m : StateT σ Option α} {k : α → StateT σ Option β} (hm : Leaves R m)
    (hk : ∀ a, Leaves R (k a)) : Leaves R (m >>= k) := by
  intro s b v h
  obtain ⟨a, u, hrun, hrest⟩ := bind_some.1 h
  exact IsTrans.trans _ _ _ (hm s a u hrun) (hk a u b v hrest)

theorem get [Std.Refl R] : Leaves R (MonadState.get : StateT σ Option σ) := by
  intro s b u h
  cases h
  exact Std.Refl.refl s

theorem modify {f : σ → σ} (h : ∀ s, R s (f s)) : Leaves R (modify f : StateT σ Option Unit) := by
  intro s a u hrun
  cases hrun
  exact h s

/-- A value that may be missing. -/
theorem lift [Std.Refl R] (o : Option α) : Leaves R (liftM o : StateT σ Option α) := by
  intro s a u h
  cases o with
  | none => cases h
  | some b =>
    cases h
    exact Std.Refl.refl s

theorem mapM [IsTrans σ R] [Std.Refl R] {f : κ → StateT σ Option β} {l : List κ}
    (h : ∀ x ∈ l, Leaves R (f x)) : Leaves R (l.mapM f) := by
  induction l with
  | nil => exact .pure []
  | cons x l ih =>
    rw [List.mapM_cons]
    exact (h x (List.mem_cons_self ..)).bind fun _ =>
      (ih fun y hy => h y (List.mem_cons_of_mem _ hy)).bind fun _ => .pure _

end Leaves

end Alcy.Lib.Contracts
