import Mathlib.Logic.Basic

/-! # Machines of basic blocks

A program of functions whose bodies are blocks of instructions. A machine says what one instruction
does in a state; a run of a block goes on until an instruction leaves it. The fuel counts the blocks
that are entered along the longest chain, so a run that never ends is one that no fuel is enough
for. Two machines with the same functions and blocks, but other instructions, are compared
instruction by instruction (`Simulation`).
-/
namespace Alcy.Lib.Blocks

/-- What an instruction does. A call says how it goes on with the result. -/
inductive Effect (φ β ν ω σ : Type) where
  | next (state : σ)
  | call (callee : φ) (args : List ν) (world : ω) (resume : Option ν → ω → σ)
  | goto (target : β) (state : σ)
  | ret (value : Option ν) (world : ω)
  | undefined

/-- How a run ends: it returns, it does what has no meaning, or it is out of fuel. -/
inductive Ending (ν ω : Type) where
  | returned (value : Option ν) (world : ω)
  | undefined
  | running
  deriving DecidableEq

/-- Functions `φ`, blocks `β`, instructions `ι`, values `ν`, worlds `ω` and states `σ`. -/
structure Machine (φ β ι ν ω σ : Type) where
  entry : φ → List ν → ω → Option (β × σ)
  body : β → List ι
  step : ι → σ → Effect φ β ν ω σ

variable {φ β ι ι' ν ω σ σ' : Type}

/-- The rest of a run, after a call that ended. -/
def Ending.andThen (e : Ending ν ω) (k : Option ν → ω → Ending ν ω) : Ending ν ω :=
  match e with
  | .returned value world => k value world
  | .undefined => .undefined
  | .running => .running

namespace Machine

variable (m : Machine φ β ι ν ω σ)

/-- The rest of a block. -/
def runInstrs (enter : β → σ → Ending ν ω) : List ι → σ → Ending ν ω
  | [], _ => .undefined
  | i :: rest, st =>
    match m.step i st with
    | .next st' => runInstrs enter rest st'
    | .call callee args world resume =>
      ((m.entry callee args world).elim .undefined fun start => enter start.1 start.2).andThen
        fun value world' => runInstrs enter rest (resume value world')
    | .goto target st' => enter target st'
    | .ret value world => .returned value world
    | .undefined => .undefined

/-- A run from the start of a block. -/
def runBlock : Nat → β → σ → Ending ν ω
  | 0, _, _ => .running
  | fuel + 1, b, st => m.runInstrs (runBlock fuel) (m.body b) st

/-- A call. -/
def run (fuel : Nat) (f : φ) (args : List ν) (world : ω) : Ending ν ω :=
  (m.entry f args world).elim .undefined fun start => m.runBlock fuel start.1 start.2

end Machine

/-! ## Simulation -/

variable {m : Machine φ β ι ν ω σ} {m' : Machine φ β ι' ν ω σ'}

/-- What one instruction does is matched by what the other machine does next. `R` relates the rest
of a block and a state of each machine. -/
inductive Matches (m : Machine φ β ι ν ω σ) (m' : Machine φ β ι' ν ω σ')
    (R : List ι → List ι' → σ → σ' → Prop) (rest : List ι) (rest' : List ι') (st' : σ') :
    Effect φ β ν ω σ → Prop
  /-- The other machine has nothing to do. -/
  | skip {st₁ : σ} (h : R rest rest' st₁ st') : Matches m m' R rest rest' st' (.next st₁)
  | next {i' : ι'} {later : List ι'} {st₁ : σ} {st₁' : σ'} (hrest : rest' = i' :: later)
      (hstep : m'.step i' st' = .next st₁') (h : R rest later st₁ st₁') :
      Matches m m' R rest rest' st' (.next st₁)
  | call {i' : ι'} {later : List ι'} {callee : φ} {args : List ν} {world : ω}
      {resume : Option ν → ω → σ} {resume' : Option ν → ω → σ'} (hrest : rest' = i' :: later)
      (hstep : m'.step i' st' = .call callee args world resume')
      (h : ∀ value world', R rest later (resume value world') (resume' value world')) :
      Matches m m' R rest rest' st' (.call callee args world resume)
  | goto {i' : ι'} {later : List ι'} {target : β} {st₁ : σ} {st₁' : σ'}
      (hrest : rest' = i' :: later) (hstep : m'.step i' st' = .goto target st₁')
      (h : R (m.body target) (m'.body target) st₁ st₁') :
      Matches m m' R rest rest' st' (.goto target st₁)
  | ret {i' : ι'} {later : List ι'} {value : Option ν} {world : ω} (hrest : rest' = i' :: later)
      (hstep : m'.step i' st' = .ret value world) :
      Matches m m' R rest rest' st' (.ret value world)
  /-- What has no meaning need not be matched. -/
  | undefined : Matches m m' R rest rest' st' .undefined

/-- Instruction by instruction, the second machine does what the first one does. -/
structure Simulation (m : Machine φ β ι ν ω σ) (m' : Machine φ β ι' ν ω σ')
    (R : List ι → List ι' → σ → σ' → Prop) : Prop where
  entry : ∀ f args world b st, m.entry f args world = some (b, st) →
    ∃ st', m'.entry f args world = some (b, st') ∧ R (m.body b) (m'.body b) st st'
  step : ∀ i rest rest' st st', R (i :: rest) rest' st st' →
    Matches m m' R rest rest' st' (m.step i st)

namespace Simulation

variable {R : List ι → List ι' → σ → σ' → Prop}

theorem andThen_eq {e e' : Ending ν ω} {k k' : Option ν → ω → Ending ν ω}
    (he : e ≠ .undefined → e' = e)
    (hk : ∀ value world, k value world ≠ .undefined → k' value world = k value world)
    (h : e.andThen k ≠ .undefined) : e'.andThen k' = e.andThen k := by
  cases e with
  | undefined => exact absurd rfl h
  | running =>
    rw [he nofun]
    rfl
  | returned value world =>
    rw [he nofun]
    exact hk value world h

theorem runInstrs (hs : Simulation m m' R) {enter : β → σ → Ending ν ω}
    {enter' : β → σ' → Ending ν ω}
    (hblock : ∀ b st st', R (m.body b) (m'.body b) st st' → enter b st ≠ .undefined →
      enter' b st' = enter b st) {l : List ι} {l' : List ι'} {st : σ} {st' : σ'}
    (hr : R l l' st st') (hdef : m.runInstrs enter l st ≠ .undefined) :
    m'.runInstrs enter' l' st' = m.runInstrs enter l st := by
  induction l generalizing l' st st' with
  | nil => exact absurd rfl hdef
  | cons i rest ih =>
    have hm := hs.step i rest l' st st' hr
    rw [Machine.runInstrs] at hdef ⊢
    generalize m.step i st = effect at hm hdef ⊢
    cases hm with
    | skip h => exact ih h hdef
    | next hrest hstep h =>
      subst hrest
      rw [Machine.runInstrs, hstep]
      exact ih h hdef
    | @call i' later callee args world resume resume' hrest hstep h =>
      subst hrest
      rw [Machine.runInstrs, hstep]
      refine andThen_eq (fun hcall => ?_) (fun value world' => ih (h value world')) hdef
      cases hentry : m.entry callee args world with
      | none => exact absurd (by rw [hentry]; rfl) hcall
      | some start =>
        obtain ⟨b, st₀⟩ := start
        obtain ⟨st₀', hentry', hrel⟩ := hs.entry _ _ _ _ _ hentry
        rw [hentry] at hcall
        rw [hentry']
        exact hblock b st₀ st₀' hrel hcall
    | goto hrest hstep h =>
      subst hrest
      rw [Machine.runInstrs, hstep]
      exact hblock _ _ _ h hdef
    | ret hrest hstep =>
      subst hrest
      rw [Machine.runInstrs, hstep]
    | undefined => exact absurd rfl hdef

theorem runBlock (hs : Simulation m m' R) (fuel : Nat) {b : β} {st : σ} {st' : σ'}
    (hr : R (m.body b) (m'.body b) st st') (hdef : m.runBlock fuel b st ≠ .undefined) :
    m'.runBlock fuel b st' = m.runBlock fuel b st := by
  induction fuel generalizing b st st' with
  | zero => rfl
  | succ fuel ih => exact hs.runInstrs (fun _ _ _ => ih) hr hdef

/-- **Runs agree**: with any fuel, a call that does nothing without a meaning ends on the second
machine as it does on the first. -/
theorem run (hs : Simulation m m' R) (fuel : Nat) {f : φ} {args : List ν} {world : ω}
    (hdef : m.run fuel f args world ≠ .undefined) :
    m'.run fuel f args world = m.run fuel f args world := by
  unfold Machine.run at hdef ⊢
  cases hentry : m.entry f args world with
  | none => exact absurd (by rw [hentry]; rfl) hdef
  | some start =>
    obtain ⟨b, st⟩ := start
    obtain ⟨st', hentry', hrel⟩ := hs.entry f args world b st hentry
    rw [hentry] at hdef
    rw [hentry']
    exact hs.runBlock fuel hrel hdef

end Simulation

end Alcy.Lib.Blocks
