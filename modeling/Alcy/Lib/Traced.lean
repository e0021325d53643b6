import Mathlib.Data.List.Basic

/-! # Computations that leave a trace

A computation over a state that logs events and may stop. What it logged before it stopped is kept,
so a statement about the trace covers the runs that do not finish. A program that performs a list
of steps is described step by step: an event of its trace was logged by one step, from the state
the steps before it left (`Walk.of_trace`).
-/
namespace Alcy.Lib

/-- What a run leaves: its events, and its result and state unless it stopped. -/
structure Outcome (σ ε α : Type) where
  log : List ε
  result : Option (α × σ)

def Traced (σ ε α : Type) := σ → Outcome σ ε α

variable {σ ε κ α β γ : Type}

namespace Traced

def ret (a : α) : Traced σ ε α := fun st => ⟨[], some (a, st)⟩

/-- The rest of a run, after events that are logged already. -/
def resume (k : α → Traced σ ε β) (log : List ε) : Option (α × σ) → Outcome σ ε β
  | none => ⟨log, none⟩
  | some (a, st) => ⟨log ++ (k a st).log, (k a st).result⟩

def andThen (m : Traced σ ε α) (k : α → Traced σ ε β) : Traced σ ε β :=
  fun st => resume k (m st).log (m st).result

instance : Monad (Traced σ ε) where
  pure := ret
  bind := andThen

theorem bind_def (m : Traced σ ε α) (k : α → Traced σ ε β) (st : σ) :
    (m >>= k) st = resume k (m st).log (m st).result := rfl

@[simp] theorem pure_run (a : α) (st : σ) :
    (pure a : Traced σ ε α) st = ⟨[], some (a, st)⟩ := rfl

instance : LawfulMonad (Traced σ ε) := LawfulMonad.mk' _
  (fun m => by
    funext st
    show resume _ (m st).log (m st).result = m st
    rcases m st with ⟨log, _ | ⟨a, st'⟩⟩ <;> simp [resume, ret])
  (fun a k => by
    funext st
    simp [bind_def, resume])
  (fun m k l => by
    funext st
    simp only [bind_def]
    rcases m st with ⟨log, _ | ⟨a, st'⟩⟩
    · rfl
    · show resume l (log ++ (k a st').log) (k a st').result =
        ⟨log ++ ((k a >>= l) st').log, ((k a >>= l) st').result⟩
      rw [bind_def]
      rcases k a st' with ⟨log', _ | ⟨b, st''⟩⟩ <;> simp [resume])

/-- Logs one event. -/
def tell (e : ε) : Traced σ ε Unit := fun st => ⟨[e], some ((), st)⟩

def get : Traced σ ε σ := fun st => ⟨[], some (st, st)⟩

def modify (f : σ → σ) : Traced σ ε Unit := fun st => ⟨[], some ((), f st)⟩

/-- Ends the run. -/
def stop : Traced σ ε α := fun _ => ⟨[], none⟩

@[simp] theorem stop_bind (k : α → Traced σ ε β) : (stop : Traced σ ε α) >>= k = stop := rfl

end Traced

open Traced

/-- A loop over the lists that a loop produces is a nested loop. -/
theorem forM_flatMap (l : List α) (g : α → List κ) (f : κ → Traced σ ε Unit) :
    forM (l.flatMap g) f = forM l fun a => forM (g a) f := by
  induction l with
  | nil => rfl
  | cons x l ih => rw [List.flatMap_cons, List.forM_append, ih, List.forM_cons]

/-! ## Reading -/

section
variable (ok : σ → ε → Prop) (clean : ε → Prop)

/-- `m` changes nothing and logs only what `ok` allows. Where all it logged is clean, its value
satisfies `Q`. -/
structure Reads (m : Traced σ ε α) (Q : α → Prop) : Prop where
  log : ∀ st, ∀ e ∈ (m st).log, ok st e
  state : ∀ st a st', (m st).result = some (a, st') → st' = st
  value : ∀ st a st', (m st).result = some (a, st') → (∀ e ∈ (m st).log, clean e) → Q a

variable {ok : σ → ε → Prop} {clean : ε → Prop}

theorem Reads.pure {a : α} {Q : α → Prop} (h : Q a) :
    Reads ok clean (pure a : Traced σ ε α) Q where
  log _ _ h := nomatch h
  state _ _ _ h := by cases h; rfl
  value _ _ _ he _ := by cases he; exact h

theorem Reads.stop {Q : α → Prop} : Reads ok clean (Traced.stop : Traced σ ε α) Q where
  log _ _ h := nomatch h
  state _ _ _ h := nomatch h
  value _ _ _ h := nomatch h

theorem Reads.get : Reads ok clean (Traced.get : Traced σ ε σ) fun _ => True where
  log _ _ h := nomatch h
  state _ _ _ h := by cases h; rfl
  value _ _ _ _ _ := trivial

theorem Reads.tell {e : ε} {Q : Unit → Prop} (he : ∀ st, ok st e) (hq : Q ()) :
    Reads ok clean (Traced.tell e : Traced σ ε Unit) Q where
  log st e' h := by
    obtain rfl := List.mem_singleton.1 h
    exact he st
  state _ _ _ h := by cases h; rfl
  value _ _ _ _ _ := hq

theorem Reads.mono {m : Traced σ ε α} {Q Q' : α → Prop} (h : Reads ok clean m Q)
    (hq : ∀ a, Q a → Q' a) : Reads ok clean m Q' where
  log := h.log
  state := h.state
  value st a st' hr hc := hq a (h.value st a st' hr hc)

/-- The parts of a sequenced run. -/
theorem bind_cases {m : Traced σ ε α} {k : α → Traced σ ε β} (st : σ) :
    (m st).result = none ∧ (m >>= k) st = ⟨(m st).log, none⟩ ∨
    ∃ a st', (m st).result = some (a, st') ∧
      (m >>= k) st = ⟨(m st).log ++ (k a st').log, (k a st').result⟩ := by
  rw [bind_def]
  rcases m st with ⟨log, _ | ⟨a, st'⟩⟩
  · exact .inl ⟨rfl, rfl⟩
  · exact .inr ⟨a, st', rfl, rfl⟩

theorem Reads.bind {m : Traced σ ε α} {k : α → Traced σ ε β} {Q : α → Prop} {Q' : β → Prop}
    (hm : Reads ok clean m Q) (hk : ∀ a, Reads ok clean (k a) fun b => Q a → Q' b) :
    Reads ok clean (m >>= k) Q' := by
  refine ⟨fun st e he => ?_, fun st b st' hr => ?_, fun st b st' hr hc => ?_⟩ <;>
    rcases bind_cases (m := m) (k := k) st with ⟨_, h⟩ | ⟨a, st₁, hres, h⟩
  · rw [h] at he
    exact hm.log st e he
  · obtain rfl := hm.state st a st₁ hres
    rw [h] at he
    rcases List.mem_append.1 he with he | he
    exacts [hm.log _ e he, (hk a).log _ e he]
  · rw [h] at hr
    exact nomatch hr
  · obtain rfl := hm.state st a st₁ hres
    rw [h] at hr
    exact (hk a).state _ b st' hr
  · rw [h] at hr
    exact nomatch hr
  · obtain rfl := hm.state st a st₁ hres
    rw [h] at hr hc
    have hc := List.forall_mem_append.1 hc
    exact (hk a).value _ b st' hr hc.2 (hm.value _ a _ hres hc.1)

theorem Reads.forM {l : List κ} {f : κ → Traced σ ε Unit} {Q : Unit → Prop}
    (h : ∀ x ∈ l, Reads ok clean (f x) fun _ => True) (hq : Q ()) :
    Reads ok clean (l.forM f) Q := by
  induction l with
  | nil => exact .pure hq
  | cons x l ih =>
    have hx := h x (List.mem_cons_self ..)
    exact hx.bind fun _ => (ih fun y hy => h y (List.mem_cons_of_mem _ hy)).mono fun _ h _ => h

theorem Reads.mapM {l : List κ} {f : κ → Traced σ ε β} {Q : List β → Prop}
    (h : ∀ x ∈ l, Reads ok clean (f x) fun _ => True) (hq : ∀ bs, Q bs) :
    Reads ok clean (l.mapM f) Q := by
  induction l generalizing Q with
  | nil => exact .pure (hq [])
  | cons x l ih =>
    rw [List.mapM_cons]
    have hx := h x (List.mem_cons_self ..)
    refine hx.bind fun b => ?_
    refine (ih (Q := fun _ => True) (fun y hy => h y (List.mem_cons_of_mem _ hy))
      fun _ => trivial).bind fun bs => ?_
    exact .pure fun _ _ => hq _

end

/-! ## Frames -/

section
variable (R : σ → σ → Prop)

/-- What a run that finishes does to the state. -/
def Preserves (m : Traced σ ε α) : Prop := ∀ st a st', (m st).result = some (a, st') → R st st'

variable {R : σ → σ → Prop}

theorem Preserves.bind [IsTrans σ R] {m : Traced σ ε α} {k : α → Traced σ ε β}
    (hm : Preserves R m) (hk : ∀ a, Preserves R (k a)) : Preserves R (m >>= k) := by
  intro st b st' hr
  rcases bind_cases (m := m) (k := k) st with ⟨_, h⟩ | ⟨a, st₁, hres, h⟩ <;> rw [h] at hr
  · exact nomatch hr
  · exact IsTrans.trans _ _ _ (hm st a st₁ hres) (hk a st₁ b st' hr)

theorem Preserves.forM [IsTrans σ R] [Std.Refl R] {l : List κ} {f : κ → Traced σ ε Unit}
    (h : ∀ x ∈ l, Preserves R (f x)) : Preserves R (l.forM f) := by
  induction l with
  | nil =>
    intro st a st' hr
    cases hr
    exact Std.Refl.refl st
  | cons x l ih =>
    have hx := h x (List.mem_cons_self ..)
    exact hx.bind fun _ => ih fun y hy => h y (List.mem_cons_of_mem _ hy)

theorem Preserves.tell [Std.Refl R] (e : ε) : Preserves R (Traced.tell e) := by
  intro st a st' hr
  cases hr
  exact Std.Refl.refl _

theorem Preserves.modify {f : σ → σ} (h : ∀ st, R st (f st)) :
    Preserves R (Traced.modify f : Traced σ ε Unit) := by
  intro st a st' hr
  cases hr
  exact h st

theorem Reads.preserves [Std.Refl R] {ok : σ → ε → Prop} {clean : ε → Prop} {m : Traced σ ε α}
    {Q : α → Prop} (h : Reads ok clean m Q) : Preserves R m := by
  intro st a st' hr
  rw [h.state st a st' hr]
  exact Std.Refl.refl st

/-- Reading first changes nothing about what the rest does to the state. -/
theorem Reads.then {ok : σ → ε → Prop} {clean : ε → Prop} {m : Traced σ ε α}
    {k : α → Traced σ ε β} {Q : α → Prop} (hm : Reads ok clean m Q)
    (hk : ∀ a, Preserves R (k a)) : Preserves R (m >>= k) := by
  intro st b st' hr
  rcases bind_cases (m := m) (k := k) st with ⟨_, h⟩ | ⟨a, st₁, hres, h⟩ <;> rw [h] at hr
  · exact nomatch hr
  · obtain rfl := hm.state st a st₁ hres
    exact hk a _ b st' hr

theorem Preserves.tellThen {e : ε} {k : Unit → Traced σ ε β} (hk : Preserves R (k ())) :
    Preserves R (Traced.tell e >>= k) := by
  intro st b st' hr
  exact hk st b st' hr

/-- **A loop that establishes a fact for each of its elements**, when no round undoes another. -/
theorem forM_establishes {f : κ → Traced σ ε Unit} {P : κ → σ → Prop}
    (hset : ∀ x, Preserves (fun _ st' => P x st') (f x))
    (hkeep : ∀ x y, Preserves (fun st st' => P x st → P x st') (f y)) {l : List κ} {st st' : σ}
    (hr : (l.forM f st).result = some ((), st')) : ∀ x, x ∈ l ∨ P x st → P x st' := by
  induction l generalizing st with
  | nil =>
    cases hr
    exact fun x hx => hx.resolve_left List.not_mem_nil
  | cons y l ih =>
    rw [show (y :: l).forM f = (f y >>= fun _ => l.forM f) from rfl] at hr
    rcases bind_cases (m := f y) (k := fun _ => l.forM f) st with ⟨_, h⟩ | ⟨u, st₁, hres, h⟩ <;>
      rw [h] at hr
    · exact nomatch hr
    · intro x hx
      refine ih hr x ?_
      rcases hx with hx | hx
      · rcases List.mem_cons.1 hx with rfl | hx
        exacts [.inr (hset x st u st₁ hres), .inl hx]
      · exact .inr (hkeep x y st u st₁ hres hx)

end

/-! ## Logs -/

section
variable (P : ε → Prop)

/-- `m` logs only what satisfies `P`, also where it does not finish. -/
def Logs (m : Traced σ ε α) : Prop := ∀ st, ∀ e ∈ (m st).log, P e

variable {P : ε → Prop}

theorem Logs.pure (a : α) : Logs P (pure a : Traced σ ε α) := fun _ _ h => nomatch h

theorem Logs.stop : Logs P (Traced.stop : Traced σ ε α) := fun _ _ h => nomatch h

theorem Logs.get : Logs P (Traced.get : Traced σ ε σ) := fun _ _ h => nomatch h

theorem Logs.modify (f : σ → σ) : Logs P (Traced.modify f : Traced σ ε Unit) :=
  fun _ _ h => nomatch h

theorem Logs.tell {e : ε} (h : P e) : Logs P (Traced.tell e : Traced σ ε Unit) :=
  fun _ _ he => List.mem_singleton.1 he ▸ h

theorem Logs.bind {m : Traced σ ε α} {k : α → Traced σ ε β} (hm : Logs P m)
    (hk : ∀ a, Logs P (k a)) : Logs P (m >>= k) := by
  intro st e he
  rcases bind_cases (m := m) (k := k) st with ⟨_, h⟩ | ⟨a, st', _, h⟩ <;> rw [h] at he
  · exact hm st e he
  · rcases List.mem_append.1 he with he | he
    exacts [hm st e he, hk a st' e he]

theorem Logs.forM {f : κ → Traced σ ε Unit} {l : List κ} (h : ∀ x ∈ l, Logs P (f x)) :
    Logs P (l.forM f) := by
  induction l with
  | nil => exact .pure ()
  | cons x l ih =>
    exact (h x (List.mem_cons_self ..)).bind fun _ => ih fun y hy => h y (List.mem_cons_of_mem _ hy)

theorem Logs.mapM {f : κ → Traced σ ε β} {l : List κ} (h : ∀ x ∈ l, Logs P (f x)) :
    Logs P (l.mapM f) := by
  induction l with
  | nil => exact .pure []
  | cons x l ih =>
    rw [List.mapM_cons]
    exact (h x (List.mem_cons_self ..)).bind fun _ =>
      (ih fun y hy => h y (List.mem_cons_of_mem _ hy)).bind fun _ => .pure _

end

/-! ## Steps -/

section
variable (run : κ → Traced σ ε Unit)

/-- `steps` all run to their end, from `st` to `st'`, and log `log`. -/
inductive Walk : List κ → σ → List ε → σ → Prop
  | nil (st : σ) : Walk [] st [] st
  | snoc {steps : List κ} {st st₁ st₂ : σ} {log : List ε} {step : κ}
      (before : Walk steps st log st₁) (last : (run step st₁).result = some ((), st₂)) :
      Walk (steps ++ [step]) st (log ++ (run step st₁).log) st₂

/-- The events of a run, each with the step that logged it. -/
def trace : List κ → σ → List (κ × ε)
  | [], _ => []
  | step :: steps, st =>
    (run step st).log.map (step, ·) ++
      (run step st).result.elim [] fun r => trace steps r.2

variable {run}

@[simp] theorem map_snd_tag (step : κ) (log : List ε) :
    (log.map (step, ·)).map Prod.snd = log := by
  rw [List.map_map]
  exact List.map_id _

/-- The log of the whole program is the trace without its tags. -/
theorem map_trace (steps : List κ) (st : σ) :
    (trace run steps st).map Prod.snd = (steps.forM run st).log := by
  induction steps generalizing st with
  | nil => rfl
  | cons step steps ih =>
    rw [trace, show (step :: steps).forM run = (run step >>= fun _ => steps.forM run) from rfl]
    rcases bind_cases (m := run step) (k := fun _ => steps.forM run) st with
      ⟨hr, h⟩ | ⟨_, st', hr, h⟩
    · rw [h, hr, Option.elim_none, List.append_nil, map_snd_tag]
    · rw [h, hr, Option.elim_some, List.map_append, map_snd_tag, ih]

/-! ### Walks -/

theorem Walk.cons {x : κ} {l : List κ} {st st₁ st₂ : σ} {log : List ε}
    (hx : (run x st).result = some ((), st₁)) (hw : Walk run l st₁ log st₂) :
    Walk run (x :: l) st ((run x st).log ++ log) st₂ := by
  generalize hst : st₁ = start at hw
  induction hw with
  | nil st₁ =>
    subst hst
    have hstart : Walk run [] st [] st := .nil st
    simpa using hstart.snoc hx
  | snoc _ last ih => simpa [List.append_assoc] using (ih hst).snoc last

/-- A program that finishes has walked through every beginning of it. -/
theorem exists_walk {before after : List κ} {st : σ}
    (h : ((before ++ after).forM run st).result.isSome = true) :
    ∃ log st', Walk run before st log st' ∧ (after.forM run st').result.isSome = true := by
  induction before generalizing st with
  | nil => exact ⟨[], st, .nil st, h⟩
  | cons x before ih =>
    rw [List.cons_append, show (x :: (before ++ after)).forM run =
      (run x >>= fun _ => (before ++ after).forM run) from rfl] at h
    rcases bind_cases (m := run x) (k := fun _ => (before ++ after).forM run) st with
      ⟨_, hb⟩ | ⟨u, st₁, hx, hb⟩ <;> rw [hb] at h
    · exact absurd h (by simp)
    · obtain ⟨log, st', hw, hrest⟩ := ih h
      exact ⟨_, st', hw.cons hx, hrest⟩

theorem forM_snoc (steps : List κ) (x : κ) :
    (steps ++ [x]).forM run = (steps.forM run >>= fun _ => run x) := by
  simp only [List.forM_eq_forM, List.forM_append, List.forM_cons, List.forM_nil, bind_pure_unit]

theorem Walk.result {steps : List κ} {st st' : σ} {log : List ε} (hw : Walk run steps st log st') :
    (steps.forM run st).result = some ((), st') := by
  induction hw with
  | nil st => rfl
  | @snoc steps st st₁ st₂ log step _ last ih =>
    rw [forM_snoc]
    rcases bind_cases (m := steps.forM run) (k := fun _ => run step) st with
      ⟨h, _⟩ | ⟨_, st', hr, hb⟩
    · rw [ih] at h
      cases h
    · rw [ih] at hr
      cases hr
      rw [hb]
      exact last

/-- What every step of a walk does to the state, the walk does. -/
theorem Walk.preserves {R : σ → σ → Prop} [Std.Refl R] [IsTrans σ R] {steps : List κ} {st st' : σ}
    {log : List ε} (h : ∀ x ∈ steps, Preserves R (run x)) (hw : Walk run steps st log st') :
    R st st' :=
  Preserves.forM h st () st' hw.result

/-- A trace of a program in two parts. -/
theorem trace_append (before after : List κ) (st : σ) :
    trace run (before ++ after) st = trace run before st ++
      (before.forM run st).result.elim [] fun r => trace run after r.2 := by
  induction before generalizing st with
  | nil => rfl
  | cons x before ih =>
    rw [List.cons_append, trace, trace,
      show (x :: before).forM run = (run x >>= fun _ => before.forM run) from rfl]
    rcases bind_cases (m := run x) (k := fun _ => before.forM run) st with
      ⟨hr, h⟩ | ⟨_, st', hr, h⟩ <;> rw [h, hr]
    · simp
    · simp only [Option.elim_some, ih st', List.append_assoc]

/-- An event of a trace was logged by its step. -/
theorem log_of_trace {l : List κ} {st : σ} {x : κ × ε} (h : x ∈ trace run l st) :
    x.1 ∈ l ∧ ∃ st', x.2 ∈ (run x.1 st').log := by
  induction l generalizing st with
  | nil => exact nomatch h
  | cons y l ih =>
    rw [trace] at h
    rcases List.mem_append.1 h with h | h
    · obtain ⟨e, he, rfl⟩ := List.mem_map.1 h
      exact ⟨List.mem_cons_self .., st, he⟩
    · cases hr : (run y st).result with
      | none => simp [hr] at h
      | some r =>
        rw [hr] at h
        obtain ⟨hm, hlog⟩ := ih h
        exact ⟨List.mem_cons_of_mem _ hm, hlog⟩

/-- What a step of a program that finishes logs is in the trace. -/
theorem trace_of_log {l : List κ} {st : σ} (h : (l.forM run st).result.isSome = true) {x : κ}
    (hx : x ∈ l) : ∃ st₁ st₂, (run x st₁).result = some ((), st₂) ∧
      ∀ e ∈ (run x st₁).log, (x, e) ∈ trace run l st := by
  obtain ⟨before, after, rfl⟩ := List.append_of_mem hx
  obtain ⟨log, st₁, hw, hrest⟩ := exists_walk h
  rw [show (x :: after).forM run = (run x >>= fun _ => after.forM run) from rfl] at hrest
  rcases bind_cases (m := run x) (k := fun _ => after.forM run) st₁ with
    ⟨_, hb⟩ | ⟨_, st₂, hr, _⟩
  · rw [hb] at hrest
    exact absurd hrest (by simp)
  · refine ⟨st₁, st₂, hr, fun e he => ?_⟩
    rw [trace_append, hw.result, Option.elim_some, trace]
    exact List.mem_append_right _ (List.mem_append_left _ (List.mem_map_of_mem he))

/-- A trace of small steps, tagged by the larger steps they make up, is the trace of those. -/
theorem trace_flatMap {τ : Type} {g : τ → List κ} {tag : κ → τ}
    (htag : ∀ a, ∀ x ∈ g a, tag x = a) (l : List τ) (st : σ) :
    (trace run (l.flatMap g) st).map (Prod.map tag id) =
      trace (fun a => (g a).forM run) l st := by
  induction l generalizing st with
  | nil => rfl
  | cons a l ih =>
    rw [List.flatMap_cons, trace_append, List.map_append, trace, ← map_trace]
    congr 1
    · rw [List.map_map]
      refine List.map_congr_left fun x hx => ?_
      simp only [Prod.map, htag a x.1 (log_of_trace hx).1, id, Function.comp]
    · cases ((g a).forM run st).result with
      | none => rfl
      | some r => exact ih r.2

/-- **A step's own part of the trace**, when no other step is the same. -/
theorem filter_trace [DecidableEq κ] {before after : List κ} {x : κ} {st₀ st : σ} {log : List ε}
    (hw : Walk run before st₀ log st) (hb : x ∉ before) (ha : x ∉ after) :
    ((trace run (before ++ x :: after) st₀).filter fun y => y.1 = x).map Prod.snd =
      (run x st).log := by
  have hnone {l : List κ} {st : σ} (h : x ∉ l) :
      (trace run l st).filter (fun y => y.1 = x) = [] := by
    refine List.filter_eq_nil_iff.2 fun y hy hyx => h ?_
    rw [← of_decide_eq_true hyx]
    exact (log_of_trace hy).1
  rw [trace_append, hw.result, List.filter_append, hnone hb, List.nil_append, Option.elim_some,
    trace, List.filter_append]
  have hrest : ((run x st).result.elim [] fun r => trace run after r.2).filter
      (fun y => y.1 = x) = [] := by
    cases (run x st).result with
    | none => rfl
    | some r => exact hnone ha
  rw [hrest, List.append_nil, List.filter_eq_self.2, map_snd_tag]
  intro y hy
  obtain ⟨e, _, rfl⟩ := List.mem_map.1 hy
  exact decide_eq_true rfl

/-- Each event was logged by one step, after the steps before it had run. -/
theorem Walk.of_trace {steps done : List κ} {st₀ st : σ} {log : List ε} {pre : List (κ × ε)}
    {step : κ} {e : ε} {post : List (κ × ε)} (hw : Walk run done st₀ log st)
    (h : trace run steps st = pre ++ (step, e) :: post) :
    ∃ before after st' logBefore log₁ log₂, steps = before ++ step :: after ∧
      Walk run (done ++ before) st₀ (log ++ logBefore) st' ∧
      (run step st').log = log₁ ++ e :: log₂ ∧ pre.map Prod.snd = logBefore ++ log₁ := by
  induction steps generalizing done st log pre with
  | nil => exact absurd h (by simp [trace])
  | cons head steps ih =>
    rw [trace] at h
    rcases List.append_eq_append_iff.1 h with ⟨mid, hpre, hmid⟩ | ⟨mid, hlog, hmid⟩
    · -- The event lies in what the later steps logged.
      cases hr : (run head st).result with
      | none => simp [hr] at hmid
      | some r =>
        obtain ⟨u, st₁⟩ := r
        rw [hr, Option.elim_some] at hmid
        obtain ⟨before, after, st', lb, log₁, log₂, rfl, hw', hl, hp⟩ :=
          ih (hw.snoc hr) hmid
        refine ⟨head :: before, after, st', (run head st).log ++ lb, log₁, log₂, rfl, ?_, hl, ?_⟩
        · simpa using hw'
        · rw [hpre, List.map_append, map_snd_tag, hp, List.append_assoc]
    · cases mid with
      | nil =>
        rw [List.append_nil] at hlog
        rw [List.nil_append] at hmid
        cases hr : (run head st).result with
        | none => simp [hr] at hmid
        | some r =>
          obtain ⟨u, st₁⟩ := r
          rw [hr, Option.elim_some] at hmid
          have hrest : trace run steps st₁ = [] ++ (step, e) :: post := hmid.symm
          obtain ⟨before, after, st', lb, log₁, log₂, rfl, hw', hl, hp⟩ := ih (hw.snoc hr) hrest
          refine ⟨head :: before, after, st', (run head st).log ++ lb, log₁, log₂, rfl, ?_, hl, ?_⟩
          · simpa using hw'
          · rw [← hlog, map_snd_tag, List.append_assoc, ← hp, List.map_nil, List.append_nil]
      | cons x mid =>
        obtain ⟨rfl, hmid⟩ := List.cons.inj hmid
        obtain ⟨log₁, rest, hl, hp, hrest⟩ := List.map_eq_append_iff.1 hlog
        obtain ⟨e', log₂, rfl, he, _⟩ := List.map_eq_cons_iff.1 hrest
        obtain ⟨rfl, rfl⟩ := Prod.mk.inj he
        refine ⟨[], steps, st, [], log₁, log₂, rfl, by simpa using hw, hl, ?_⟩
        rw [← hp, map_snd_tag, List.nil_append]

end

end Alcy.Lib
