import Mathlib.Data.List.Forall2
import Mathlib.Data.List.Nodup
import Mathlib.Data.List.Perm.Subperm
import Mathlib.Data.List.Basic
import Mathlib.Logic.Relation

/-! # Unfolding a graph into a tree

A vertex is listed before what its successors unfold to, once for every path that leads to it. The
path from the root is carried along, and a vertex that stands on it is not entered again. On a
graph in which finitely many vertices have successors this ends, and it fails exactly where a vertex
without successors or a cycle can be reached.
-/
namespace Alcy.Lib

theorem forall₂_mem_left {α β : Type} {R : α → β → Prop} {as : List α} {bs : List β}
    (h : List.Forall₂ R as bs) {a : α} (ha : a ∈ as) : ∃ b ∈ bs, R a b := by
  induction h with
  | nil => exact nomatch ha
  | cons hr _ ih =>
    rcases List.mem_cons.1 ha with rfl | ha
    · exact ⟨_, List.mem_cons_self .., hr⟩
    · obtain ⟨b, hb, hab⟩ := ih ha
      exact ⟨b, .tail _ hb, hab⟩

theorem forall₂_mem_right {α β : Type} {R : α → β → Prop} {as : List α} {bs : List β}
    (h : List.Forall₂ R as bs) {b : β} (hb : b ∈ bs) : ∃ a ∈ as, R a b :=
  forall₂_mem_left h.flip hb

namespace Unfold

variable {α β : Type}

/-- A traversal that succeeds has succeeded on each element. -/
theorem mapM_eq_some {f : α → Option β} {l : List α} {r : List β} :
    l.mapM f = some r ↔ List.Forall₂ (fun a b => f a = some b) l r := by
  induction l generalizing r with
  | nil => simp [eq_comm]
  | cons a l ih =>
    simp only [List.mapM_cons, Option.bind_eq_bind, Option.bind_eq_some_iff, Option.pure_def,
      Option.some.injEq, List.forall₂_cons_left_iff]
    constructor
    · rintro ⟨b, hb, bs, hbs, rfl⟩
      exact ⟨b, bs, hb, ih.1 hbs, rfl⟩
    · rintro ⟨b, bs, hb, hbs, rfl⟩
      exact ⟨b, hb, bs, ih.2 hbs, rfl⟩

theorem mapM_isSome {f : α → Option β} {l : List α} :
    (l.mapM f).isSome = true ↔ ∀ a ∈ l, (f a).isSome = true := by
  induction l with
  | nil => simp
  | cons a l ih =>
    rw [List.forall_mem_cons, ← ih, List.mapM_cons]
    cases f a <;> cases l.mapM f <;> simp

variable [DecidableEq α]

/-- The unfolding of `a`, when `path` leads to it. -/
def unfold (next : α → Option (List α)) : Nat → List α → α → Option (List α)
  | 0, _, _ => none
  | n + 1, path, a =>
    if a ∈ path then none
    else do
      let succs ← next a
      let parts ← succs.mapM (unfold next n (path ++ [a]))
      some (a :: parts.flatten)

variable {next : α → Option (List α)}

omit [DecidableEq α] in
/-- The successor relation. -/
def Edge (next : α → Option (List α)) (a b : α) : Prop := ∃ succs, next a = some succs ∧ b ∈ succs

theorem unfold_eq_some {n : Nat} {path : List α} {a : α} {l : List α} :
    unfold next (n + 1) path a = some l ↔ a ∉ path ∧ ∃ succs parts, next a = some succs ∧
      List.Forall₂ (fun b part => unfold next n (path ++ [a]) b = some part) succs parts ∧
      l = a :: parts.flatten := by
  rw [unfold]
  split
  · next h => simp [h]
  · next h =>
    simp only [Option.bind_eq_bind, Option.bind_eq_some_iff, mapM_eq_some, Option.some.injEq]
    constructor
    · rintro ⟨succs, hs, parts, hp, rfl⟩
      exact ⟨h, succs, parts, hs, hp, rfl⟩
    · rintro ⟨_, succs, parts, hs, hp, rfl⟩
      exact ⟨succs, hs, parts, hp, rfl⟩

/-- **The unfolding is the vertex's own**: no path that leads to it, and no bound, changes it. -/
theorem unfold_unique {n n' : Nat} {path path' : List α} {a : α} {l l' : List α}
    (h : unfold next n path a = some l) (h' : unfold next n' path' a = some l') : l = l' := by
  induction n generalizing n' path path' a l l' with
  | zero => exact nomatch h
  | succ n ih =>
    cases n' with
    | zero => exact nomatch h'
    | succ n' =>
      obtain ⟨_, succs, parts, hs, hp, rfl⟩ := unfold_eq_some.1 h
      obtain ⟨_, succs', parts', hs', hp', rfl⟩ := unfold_eq_some.1 h'
      obtain rfl : succs = succs' := Option.some.inj (hs.symm.trans hs')
      congr 2
      clear h h' hs hs'
      induction hp generalizing parts' with
      | nil =>
        cases hp'
        rfl
      | cons hb _ ihp =>
        cases hp' with
        | cons hb' hp' => rw [ih hb hb', ihp _ hp']

/-- What a path and a bound allow: the path visits no vertex twice, and the bound covers the
vertices with successors that it has not visited. -/
structure Enough (next : α → Option (List α)) (n : Nat) (path : List α) : Prop where
  nodup : path.Nodup
  bound : ∃ vertices : List α, (∀ a, (next a).isSome = true → a ∈ vertices) ∧
    (∀ a ∈ path, a ∈ vertices) ∧ vertices.length < n + path.length

omit [DecidableEq α] in
theorem Enough.start {n : Nat} {vertices : List α}
    (hv : ∀ a, (next a).isSome = true → a ∈ vertices) (hn : vertices.length < n) :
    Enough next n [] :=
  ⟨List.nodup_nil, vertices, hv, nofun, hn⟩

omit [DecidableEq α] in
theorem Enough.pos {n : Nat} {path : List α} (h : Enough next n path) : 0 < n := by
  obtain ⟨vertices, _, hsub, hlt⟩ := h.bound
  have := (List.Nodup.subperm h.nodup hsub).length_le
  omega

omit [DecidableEq α] in
theorem Enough.step {n : Nat} {path : List α} {a : α} (h : Enough next (n + 1) path)
    (ha : a ∉ path) (hn : (next a).isSome = true) : Enough next n (path ++ [a]) := by
  obtain ⟨vertices, hv, hsub, hlt⟩ := h.bound
  refine ⟨List.nodup_append'.2 ⟨h.nodup, List.nodup_singleton a, by simpa using ha⟩,
    vertices, hv, List.forall_mem_append.2 ⟨hsub, by simpa using hv a hn⟩, ?_⟩
  simp only [List.length_append, List.length_singleton]
  omega

/-- **When it succeeds**: what can be reached has successors, lies off the path and on no cycle. -/
theorem unfold_isSome {n : Nat} {path : List α} {a : α} (h : Enough next n path) :
    (unfold next n path a).isSome = true ↔ ∀ b, Relation.ReflTransGen (Edge next) a b →
      (next b).isSome = true ∧ b ∉ path ∧ ¬ Relation.TransGen (Edge next) b b := by
  induction n generalizing path a with
  | zero => exact absurd h.pos (Nat.lt_irrefl 0)
  | succ n ih =>
    rw [unfold]
    by_cases ha : a ∈ path
    · rw [if_pos ha]
      exact ⟨nofun, fun hall => absurd ha (hall a .refl).2.1⟩
    rw [if_neg ha]
    cases hs : next a with
    | none => exact ⟨nofun, fun hall => by simpa [hs] using (hall a .refl).1⟩
    | some succs =>
      have hstep := h.step ha (hs ▸ rfl)
      have hpart : ((do
            let parts ← succs.mapM (unfold next n (path ++ [a]))
            some (a :: parts.flatten)).isSome = true) ↔
          ∀ b ∈ succs, (unfold next n (path ++ [a]) b).isSome = true := by
        rw [← mapM_isSome]
        cases succs.mapM (unfold next n (path ++ [a])) <;> rfl
      simp only [Option.bind_eq_bind, Option.bind_some] at hpart ⊢
      rw [hpart]
      constructor
      · intro hall b hb
        have hbelow {s : α} (hs' : s ∈ succs) {b : α} (hr : Relation.ReflTransGen (Edge next) s b) :=
          (ih hstep).1 (hall s hs') b hr
        rcases Relation.ReflTransGen.cases_head hb with rfl | ⟨s, ⟨succs', hs', hmem⟩, hr⟩
        · refine ⟨hs ▸ rfl, ha, fun hcyc => ?_⟩
          obtain ⟨s, ⟨succs', hs', hmem⟩, hr⟩ := Relation.TransGen.head'_iff.1 hcyc
          obtain rfl : succs = succs' := Option.some.inj (hs.symm.trans hs')
          exact (hbelow hmem hr).2.1 (List.mem_append_right _ (List.mem_singleton_self _))
        · obtain rfl : succs = succs' := Option.some.inj (hs.symm.trans hs')
          obtain ⟨hsome, hoff, hacyc⟩ := hbelow hmem hr
          exact ⟨hsome, fun hb => hoff (List.mem_append_left _ hb), hacyc⟩
      · intro hall s hmem
        have hedge : Edge next a s := ⟨succs, hs, hmem⟩
        refine (ih hstep).2 fun b hr => ?_
        obtain ⟨hsome, hoff, hacyc⟩ := hall b (.head hedge hr)
        refine ⟨hsome, fun hb => ?_, hacyc⟩
        rcases List.mem_append.1 hb with hb | hb
        · exact hoff hb
        · obtain rfl := List.mem_singleton.1 hb
          exact hacyc (Relation.TransGen.head'_iff.2 ⟨s, hedge, hr⟩)

/-- **What an unfolding lists** is what can be reached. -/
theorem mem_unfold {n : Nat} {path : List α} {a : α} {l : List α}
    (h : unfold next n path a = some l) {b : α} :
    b ∈ l ↔ Relation.ReflTransGen (Edge next) a b := by
  induction n generalizing path a l with
  | zero => exact nomatch h
  | succ n ih =>
    obtain ⟨-, succs, parts, hsuccs, hparts, rfl⟩ := unfold_eq_some.1 h
    rw [Relation.ReflTransGen.cases_head_iff, List.mem_cons, List.mem_flatten]
    constructor
    · rintro (rfl | ⟨part, hpart, hb⟩)
      · exact .inl rfl
      · obtain ⟨c, hc, hcpart⟩ := forall₂_mem_right hparts hpart
        exact .inr ⟨c, ⟨succs, hsuccs, hc⟩, (ih hcpart).1 hb⟩
    · rintro (rfl | ⟨c, ⟨succs', hsuccs', hc⟩, hb⟩)
      · exact .inl rfl
      · cases hsuccs.symm.trans hsuccs'
        obtain ⟨part, hpart, hcpart⟩ := forall₂_mem_left hparts hc
        exact .inr ⟨part, hpart, (ih hcpart).2 hb⟩

/-- What a vertex unfolds to below others, it unfolds to from the start. -/
theorem unfold_start {n n' : Nat} {path : List α} {a : α} {l : List α} (h : Enough next n path)
    (h' : Enough next n' []) (hl : unfold next n path a = some l) :
    unfold next n' [] a = some l := by
  have hall := (unfold_isSome h).1 (Option.isSome_iff_exists.2 ⟨l, hl⟩)
  obtain ⟨l', hl'⟩ := Option.isSome_iff_exists.1 ((unfold_isSome h').2 fun b hb =>
    ⟨(hall b hb).1, List.not_mem_nil, (hall b hb).2.2⟩)
  rw [hl', unfold_unique hl hl']

end Unfold

end Alcy.Lib
