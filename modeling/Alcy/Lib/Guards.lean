import Mathlib.Data.List.Basic

/-! # Validators in `Except`

What the success of a validator establishes: one rule for each way validators are composed. A
sequence of guards succeeds when every guard does, and a fold carries an invariant from the
elements it has passed to the next one.
-/
namespace Alcy.Lib.Guards

variable {ε α β : Type}

@[simp] theorem bind_eq_ok {x : Except ε α} {f : α → Except ε β} {b : β} :
    (x >>= f) = .ok b ↔ ∃ a, x = .ok a ∧ f a = .ok b := by
  cases x with
  | error e => exact ⟨fun h => (nomatch h), fun ⟨_, h, _⟩ => (nomatch h)⟩
  | ok a => exact ⟨fun h => ⟨a, rfl, h⟩, fun ⟨_, h, hb⟩ => Except.ok.inj h ▸ hb⟩

@[simp] theorem pure_eq_ok {a b : α} : (pure a : Except ε α) = .ok b ↔ a = b :=
  ⟨Except.ok.inj, congrArg _⟩

/-- The result of a guard says nothing. -/
@[simp] theorem exists_unit {holds : Unit → Prop} : (∃ u, holds u) ↔ holds () :=
  ⟨fun ⟨(), h⟩ => h, fun h => ⟨(), h⟩⟩

/-- A traversal succeeds exactly when each of its checks does. -/
theorem forM_eq_ok {check : α → Except ε Unit} {l : List α} :
    l.forM check = .ok () ↔ ∀ a ∈ l, check a = .ok () := by
  induction l with
  | nil => exact ⟨fun _ _ h => (nomatch h), fun _ => rfl⟩
  | cons a l ih =>
    rw [show (a :: l).forM check = (check a >>= fun _ => l.forM check) from rfl, bind_eq_ok]
    rw [List.forall_mem_cons]
    exact ⟨fun ⟨_, ha, hl⟩ => ⟨ha, ih.1 hl⟩, fun ⟨ha, hl⟩ => ⟨(), ha, ih.2 hl⟩⟩

/-- **The fold rule.** `R p b`: the state `b` is right when exactly the elements of `p` have been
passed. -/
theorem foldlM_ok {step : β → α → Except ε β} {R : List α → β → Prop}
    (hstep : ∀ p a b b', R p b → step b a = .ok b' → R (p ++ [a]) b') :
    ∀ {l p : List α} {b b' : β}, R p b → l.foldlM step b = .ok b' → R (p ++ l) b'
  | [], p, b, b', hb, h => by
    obtain rfl : b = b' := pure_eq_ok.1 h
    simpa using hb
  | a :: l, p, b, b', hb, h => by
    rw [List.foldlM_cons, bind_eq_ok] at h
    obtain ⟨b₁, ha, hl⟩ := h
    have := foldlM_ok hstep (hstep p a b b₁ hb ha) hl
    simpa using this

/-- Every element that a fold passes is accepted in some state. -/
theorem foldlM_mem {step : β → α → Except ε β} {l : List α} {b b' : β}
    (h : l.foldlM step b = .ok b') : ∀ a ∈ l, ∃ c c', step c a = .ok c' := by
  induction l generalizing b with
  | nil => exact nofun
  | cons x l ih =>
    rw [List.foldlM_cons, bind_eq_ok] at h
    obtain ⟨c, hx, hl⟩ := h
    exact List.forall_mem_cons.2 ⟨⟨b, c, hx⟩, ih hl⟩

/-! ## Errors that never occur -/

/-- `x` does not end with the error `bad`, and a success satisfies `Q`. -/
def Avoids (bad : ε) (x : Except ε α) (Q : α → Prop) : Prop :=
  x ≠ .error bad ∧ ∀ a, x = .ok a → Q a

variable {bad : ε} {Q : α → Prop}

theorem Avoids.ok {a : α} (h : Q a) : Avoids bad (.ok a : Except ε α) Q :=
  ⟨nofun, fun _ he => Except.ok.inj he ▸ h⟩

theorem Avoids.error {e : ε} (h : e ≠ bad) : Avoids bad (.error e : Except ε α) Q :=
  ⟨fun he => h (Except.error.inj he), nofun⟩

theorem Avoids.mono {x : Except ε α} {Q' : α → Prop} (h : Avoids bad x Q)
    (hq : ∀ a, Q a → Q' a) : Avoids bad x Q' :=
  ⟨h.1, fun a ha => hq a (h.2 a ha)⟩

theorem Avoids.bind {x : Except ε α} {f : α → Except ε β} {Q' : β → Prop} (hx : Avoids bad x Q)
    (hf : ∀ a, Q a → Avoids bad (f a) Q') : Avoids bad (x >>= f) Q' := by
  cases x with
  | error e => exact ⟨fun h => hx.1 (congrArg _ (Except.error.inj h)), nofun⟩
  | ok a => exact hf a (hx.2 a rfl)

/-- What a traversal leaves behind: the fact each check establishes, for every element. -/
theorem Avoids.forM {check : α → Except ε Unit} {l : List α}
    (h : ∀ a ∈ l, Avoids bad (check a) fun _ => Q a) :
    Avoids bad (l.forM check) fun _ => ∀ a ∈ l, Q a := by
  induction l with
  | nil => exact .ok nofun
  | cons a l ih =>
    refine (h a (List.mem_cons_self ..)).bind fun _ ha => ?_
    exact (ih fun b hb => h b (List.mem_cons_of_mem _ hb)).mono fun _ hl =>
      List.forall_mem_cons.2 ⟨ha, hl⟩

/-- A fold that keeps an invariant, and leaves behind a fact for every element. -/
theorem Avoids.foldlM {step : β → α → Except ε β} {I : β → Prop} {l : List α}
    (h : ∀ a ∈ l, ∀ b, I b → Avoids bad (step b a) fun b' => I b' ∧ Q a) {b : β} (hb : I b) :
    Avoids bad (l.foldlM step b) fun b' => I b' ∧ ∀ a ∈ l, Q a := by
  induction l generalizing b with
  | nil => exact .ok ⟨hb, nofun⟩
  | cons a l ih =>
    rw [List.foldlM_cons]
    refine (h a (List.mem_cons_self ..) b hb).bind fun b' ⟨hb', ha⟩ => ?_
    exact (ih (fun c hc => h c (List.mem_cons_of_mem _ hc)) hb').mono fun _ ⟨hi, hl⟩ =>
      ⟨hi, List.forall_mem_cons.2 ⟨ha, hl⟩⟩

/-! ## What is known of every error -/

/-- Every error of `x` satisfies `P`. -/
def Errors (P : ε → Prop) (x : Except ε α) : Prop := ∀ e, x = .error e → P e

variable {P : ε → Prop}

theorem Errors.ok {a : α} : Errors P (.ok a : Except ε α) := nofun

theorem Errors.error {e : ε} (h : P e) : Errors P (.error e : Except ε α) :=
  fun _ he => Except.error.inj he ▸ h

theorem Errors.bind {x : Except ε α} {f : α → Except ε β} (hx : Errors P x)
    (hf : ∀ a, Errors P (f a)) : Errors P (x >>= f) := by
  cases x with
  | error e => exact fun e' he => hx e' (congrArg _ (Except.error.inj he))
  | ok a => exact hf a

theorem Errors.mapM {f : α → Except ε β} (hf : ∀ a, Errors P (f a)) (l : List α) :
    Errors P (l.mapM f) := by
  induction l with
  | nil => exact .ok
  | cons a l ih =>
    rw [List.mapM_cons]
    exact (hf a).bind fun _ => ih.bind fun _ => .ok

end Alcy.Lib.Guards
