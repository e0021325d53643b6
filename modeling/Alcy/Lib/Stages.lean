import Alcy.Lib.Traced
import Mathlib.Data.List.Nodup
import Mathlib.Logic.Function.Basic

/-! # The stages of a program of steps

A program that performs a list of steps, cut into the steps that ran, each with the state it began
in. Where no step occurs twice, a stage is a function of its step (`exists_stages`), and what a
reader collects from the stages it collects from the list of steps.
-/
namespace Alcy.Lib.Traced

variable {κ σ ε α : Type}

section
variable (run : κ → Traced σ ε Unit)

/-- The steps that ran, each with the state it began in. -/
def stages : List κ → σ → List (κ × σ)
  | [], _ => []
  | step :: steps, st =>
    (step, st) :: (run step st).result.elim [] fun r => stages steps r.2

/-- A program that runs from `st₀` to `fin` and logs `log` has a step that begins in `st`. -/
structure Stage (st₀ fin : σ) (log : List ε) (before : List κ) (step : κ) (after : List κ)
    (st : σ) : Prop where
  walk : ∃ log', Walk run before st₀ log' st ∧ ∀ e ∈ log', e ∈ log
  rest : ∃ st' log', (run step st).result = some ((), st') ∧ Walk run after st' log' fin
  logged : ∀ e ∈ (run step st).log, e ∈ log

end

variable {run : κ → Traced σ ε Unit}

/-- A program that finishes is a walk. -/
theorem walk_of_finished {steps : List κ} {st fin : σ}
    (h : (steps.forM run st).result = some ((), fin)) : ∃ log, Walk run steps st log fin := by
  have hdone : ((steps ++ []).forM run st).result.isSome = true := by
    rw [List.append_nil, h]
    rfl
  obtain ⟨log, st', hw, _⟩ := exists_walk hdone
  cases h.symm.trans hw.result
  exact ⟨log, hw⟩

theorem Stage.cons {x step : κ} {st st₁ st' fin : σ} {log : List ε} {before after : List κ}
    (hx : (run x st).result = some ((), st₁)) (h : Stage run st₁ fin log before step after st') :
    Stage run st fin ((run x st).log ++ log) (x :: before) step after st' := by
  obtain ⟨log', hw, hsub⟩ := h.walk
  refine ⟨⟨_, hw.cons hx, fun e he => ?_⟩, h.rest, fun e he => ?_⟩
  · rcases List.mem_append.1 he with he | he
    exacts [List.mem_append_left _ he, List.mem_append_right _ (hsub e he)]
  · exact List.mem_append_right _ (h.logged e he)

/-- **The stages of a program that finishes**, by their steps. -/
theorem exists_stages {steps : List κ} {st fin : σ} (hn : steps.Nodup)
    (h : (steps.forM run st).result = some ((), fin)) :
    ∃ start : κ → σ, stages run steps st = steps.map (fun x => (x, start x)) ∧
      ∀ before x after, steps = before ++ x :: after →
        Stage run st fin (steps.forM run st).log before x after (start x) := by
  classical
  induction steps generalizing st with
  | nil => exact ⟨fun _ => st, rfl, fun before x after h => by simp at h⟩
  | cons step steps ih =>
    obtain ⟨hnot, hn⟩ := List.nodup_cons.1 hn
    rw [show (step :: steps).forM run = (run step >>= fun _ => steps.forM run) from rfl] at h ⊢
    rcases bind_cases (m := run step) (k := fun _ => steps.forM run) st with
      ⟨_, hb⟩ | ⟨u, st₁, hr, hb⟩ <;> rw [hb] at h ⊢
    · exact nomatch h
    · obtain ⟨start, hmap, hstage⟩ := ih hn h
      refine ⟨Function.update start step st, ?_, fun before x after hsplit => ?_⟩
      · rw [stages, hr, Option.elim_some, hmap, List.map_cons, Function.update_self]
        refine congrArg _ (List.map_congr_left fun x hx => ?_)
        rw [Function.update_of_ne fun he => hnot (by rwa [he] at hx)]
      · cases before with
        | nil =>
          obtain ⟨rfl, rfl⟩ := List.cons.inj hsplit
          obtain ⟨log, hw⟩ := walk_of_finished h
          rw [Function.update_self]
          exact ⟨⟨[], .nil st, nofun⟩, ⟨st₁, log, hr, hw⟩, fun e he => List.mem_append_left _ he⟩
        | cons y before =>
          obtain ⟨rfl, htail⟩ := List.cons.inj hsplit
          have hx : x ≠ step := fun he => hnot (by rw [htail, he]; simp)
          rw [Function.update_of_ne hx]
          exact (hstage before x after htail).cons hr

/-! ## Reading lists of steps -/

/-- A collection to which one element contributes. -/
theorem flatMap_single {g : κ → List α} {l : List κ} {a : κ} (hn : l.Nodup) (ha : a ∈ l)
    (h : ∀ x ∈ l, x ≠ a → g x = []) : l.flatMap g = g a := by
  induction l with
  | nil => exact absurd ha List.not_mem_nil
  | cons x l ih =>
    obtain ⟨hx, hn⟩ := List.nodup_cons.1 hn
    rw [List.flatMap_cons]
    rcases List.mem_cons.1 ha with rfl | ha
    · rw [List.flatMap_eq_nil_iff.2 fun y hy => h y (.tail _ hy) fun he => hx (he ▸ hy),
        List.append_nil]
    · rw [h x (List.mem_cons_self ..) fun he => hx (he ▸ ha), List.nil_append]
      exact ih hn ha fun y hy => h y (.tail _ hy)

end Alcy.Lib.Traced
