import Alcy.Lib.Unfold
import Mathlib.Order.Defs.PartialOrder

/-! # Searching a graph for a cycle

The depth-first search that carries the path from its root and stops at the first vertex that is on
that path already. It answers wherever the unfolding of `Lib.Unfold` is defined or fails for a cycle.
Where the edges go down in an order, but for some special vertices, a cycle passes a special one.
-/
namespace Alcy.Lib.Cycle
open Alcy.Lib.Unfold (Edge Enough unfold unfold_isSome)

variable {α : Type}

/-! ## Loops that stop early -/

theorem anyM_eq {f : α → Option Bool} {g : α → Bool} {l : List α}
    (h : ∀ x ∈ l, f x = some (g x)) : l.anyM f = some (l.any g) := by
  induction l with
  | nil => rfl
  | cons x l ih =>
    rw [List.anyM, h x (List.mem_cons_self ..)]
    cases hx : g x with
    | true => simp [hx]
    | false =>
      simp only [Option.bind_eq_bind, Option.bind_some, List.any_cons, hx, Bool.false_or]
      exact ih fun y hy => h y (List.mem_cons_of_mem _ hy)

theorem allM_isSome {f : α → Option Bool} {l : List α} (h : ∀ x ∈ l, (f x).isSome = true) :
    (l.allM f).isSome = true := by
  induction l with
  | nil => rfl
  | cons x l ih =>
    obtain ⟨b, hb⟩ := Option.isSome_iff_exists.1 (h x (List.mem_cons_self ..))
    rw [List.allM, hb]
    cases b with
    | false => rfl
    | true => exact ih fun y hy => h y (List.mem_cons_of_mem _ hy)

/-- A loop that asks for all finds all. -/
theorem allM_eq_true {f : α → Option Bool} {l : List α} (h : l.allM f = some true) :
    ∀ x ∈ l, f x = some true := by
  induction l with
  | nil => exact nofun
  | cons x l ih =>
    obtain ⟨b, hb, h⟩ := Option.bind_eq_some_iff.1 h
    cases b with
    | false => cases h
    | true => exact List.forall_mem_cons.2 ⟨hb, ih h⟩

/-- A loop that stops has found one that fails. -/
theorem allM_eq_false {f : α → Option Bool} {l : List α} (h : l.allM f = some false) :
    ∃ x ∈ l, f x = some false := by
  induction l with
  | nil => cases h
  | cons x l ih =>
    obtain ⟨b, hb, h⟩ := Option.bind_eq_some_iff.1 h
    cases b with
    | false => exact ⟨x, List.mem_cons_self .., hb⟩
    | true =>
      obtain ⟨y, hy, hf⟩ := ih h
      exact ⟨y, List.mem_cons_of_mem _ hy, hf⟩

/-! ## The search -/

section

variable [DecidableEq α] {next : α → Option (List α)}

/-- Whether a vertex that `path` leads to reaches a vertex twice. -/
def search (next : α → Option (List α)) : Nat → List α → α → Option Bool
  | 0, _, _ => none
  | n + 1, path, a =>
    if a ∈ path then some true
    else do
      let succs ← next a
      succs.anyM (search next n (path ++ [a]))

/-- The search finds a cycle where the unfolding fails. -/
theorem search_eq {n : Nat} {path : List α} {a : α} (h : Enough next n path)
    (hall : ∀ b, Relation.ReflTransGen (Edge next) a b → (next b).isSome = true) :
    search next n path a = some (!(unfold next n path a).isSome) := by
  induction n generalizing path a with
  | zero => exact absurd h.pos (Nat.lt_irrefl 0)
  | succ n ih =>
    rw [search, unfold]
    by_cases ha : a ∈ path
    · rw [if_pos ha, if_pos ha]
      rfl
    rw [if_neg ha, if_neg ha]
    obtain ⟨succs, hs⟩ := Option.isSome_iff_exists.1 (hall a .refl)
    have hstep := h.step ha (hs ▸ rfl)
    have hsearch : ∀ b ∈ succs, search next n (path ++ [a]) b =
        some (!(unfold next n (path ++ [a]) b).isSome) := by
      intro b hb
      refine ih hstep fun c hc => hall c (.head ⟨succs, hs, hb⟩ hc)
    simp only [hs, Option.bind_eq_bind, Option.bind_some]
    rw [anyM_eq hsearch]
    congr 1
    have hparts := Unfold.mapM_isSome (f := unfold next n (path ++ [a])) (l := succs)
    cases hm : succs.mapM (unfold next n (path ++ [a])) with
    | none =>
      rw [hm] at hparts
      simpa using hparts
    | some parts =>
      rw [hm] at hparts
      simpa [Option.isSome_iff_ne_none] using hparts

/-- **The search is the reachability of a cycle.** -/
theorem search_iff {n : Nat} {a : α} (h : Enough next n [])
    (hall : ∀ b, Relation.ReflTransGen (Edge next) a b → (next b).isSome = true) :
    search next n [] a = some true ↔ ∃ b, Relation.ReflTransGen (Edge next) a b ∧
      Relation.TransGen (Edge next) b b := by
  rw [search_eq h hall, Option.some.injEq, Bool.not_eq_true', ← Bool.not_eq_true, unfold_isSome h]
  constructor
  · intro hn
    by_contra hc
    exact hn fun b hb => ⟨hall b hb, List.not_mem_nil, fun hcyc => hc ⟨b, hb, hcyc⟩⟩
  · rintro ⟨b, hb, hcyc⟩ hn
    exact (hn b hb).2.2 hcyc

end

/-! ## Cycles in a graph that goes down -/

/-- **A cycle passes a special vertex** where every other edge goes down. -/
theorem exists_special [Preorder α] {r : α → α → Prop} {special : α → Prop}
    (h : ∀ a b, r a b → special a ∨ b < a) {v : α} (hv : Relation.TransGen r v v) :
    ∃ a, special a ∧ Relation.TransGen r a a := by
  by_contra hn
  have hdown : ∀ b, Relation.TransGen r v b → Relation.ReflTransGen r b v → b < v := by
    intro b hb
    induction hb with
    | single hvb =>
      intro hback
      refine (h _ _ hvb).resolve_left fun hspecial => hn ⟨v, hspecial, ?_⟩
      exact Relation.TransGen.head'_iff.2 ⟨_, hvb, hback⟩
    | @tail c b hvc hcb ih =>
      intro hback
      have hcv : Relation.TransGen r c v := Relation.TransGen.head'_iff.2 ⟨_, hcb, hback⟩
      have hbc : b < c := (h _ _ hcb).resolve_left fun hspecial =>
        hn ⟨c, hspecial, hcv.trans hvc⟩
      exact lt_trans hbc (ih hcv.to_reflTransGen)
  exact lt_irrefl v (hdown v hv .refl)

end Alcy.Lib.Cycle
