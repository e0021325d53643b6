import Alcy.Lib.Unfold

/-! # Searching with one visited list

The depth-first search that enters no vertex twice and stops at the first hit. All branches share
the list of the vertices entered so far, so that a branch may end at a vertex that is still being
explored. A search without a hit has entered only vertices whose successors it has entered too.
-/
namespace Alcy.Lib.Visited
open Alcy.Lib.Unfold (Edge)

variable {α : Type}

/-- The first of some vertices that leads to a hit. -/
def anyFrom (look : List α → α → Option (Bool × List α)) :
    List α → List α → Option (Bool × List α)
  | visited, [] => some (false, visited)
  | visited, a :: rest => do
    let (found, visited) ← look visited a
    if found then return (true, visited) else anyFrom look visited rest

variable [DecidableEq α]

/-- Whether a vertex leads to a hit, with the vertices entered by then. -/
def look (hit : α → Bool) (next : α → Option (List α)) : Nat → List α → α →
    Option (Bool × List α)
  | 0, _, _ => none
  | n + 1, visited, a =>
    if a ∈ visited then some (false, visited)
    else if hit a then some (true, visited ++ [a])
    else do
      let succs ← next a
      anyFrom (look hit next n) (visited ++ [a]) succs

variable {hit : α → Bool} {next : α → Option (List α)} {n : Nat} {a : α}
  {visited visited' visited'' : List α} {found : Bool}

omit [DecidableEq α] in
theorem anyFrom_cons {look : List α → α → Option (Bool × List α)} {rest : List α}
    {result : Bool × List α} (h : anyFrom look visited (a :: rest) = some result) :
    ∃ found visited', look visited a = some (found, visited') ∧
      ((found = true ∧ result = (true, visited')) ∨
        (found = false ∧ anyFrom look visited' rest = some result)) := by
  simp only [anyFrom, Option.bind_eq_bind, Option.bind_eq_some_iff] at h
  obtain ⟨⟨found, visited'⟩, hlook, h⟩ := h
  refine ⟨found, visited', hlook, ?_⟩
  cases found with
  | true => exact .inl ⟨rfl, (Option.some.inj h).symm⟩
  | false => exact .inr ⟨rfl, h⟩

/-- One entered vertex, taken apart. -/
theorem look_succ {result : Bool × List α} (h : look hit next (n + 1) visited a = some result) :
    (a ∈ visited ∧ result = (false, visited)) ∨
    (a ∉ visited ∧ hit a = true ∧ result = (true, visited ++ [a])) ∨
    (a ∉ visited ∧ hit a = false ∧ ∃ succs, next a = some succs ∧
      anyFrom (look hit next n) (visited ++ [a]) succs = some result) := by
  rw [look] at h
  split at h
  · next ha => exact .inl ⟨ha, (Option.some.inj h).symm⟩
  · next ha =>
    split at h
    · next hh => exact .inr (.inl ⟨ha, hh, (Option.some.inj h).symm⟩)
    · next hh =>
      obtain ⟨succs, hs, h⟩ := Option.bind_eq_some_iff.1 h
      exact .inr (.inr ⟨ha, by simpa using hh, succs, hs, h⟩)

/-! ## A hit is reached -/

theorem look_sound (h : look hit next n visited a = some (true, visited')) :
    ∃ b, Relation.ReflTransGen (Edge next) a b ∧ hit b = true := by
  induction n generalizing visited a visited' with
  | zero => cases h
  | succ n ih =>
    rcases look_succ h with ⟨-, h⟩ | ⟨-, hhit, -⟩ | ⟨-, -, succs, hs, h⟩
    · cases h
    · exact ⟨a, .refl, hhit⟩
    · have hany {rest : List α} {visited visited' : List α}
          (hsub : ∀ b ∈ rest, b ∈ succs)
          (h : anyFrom (look hit next n) visited rest = some (true, visited')) :
          ∃ b ∈ succs, ∃ c, Relation.ReflTransGen (Edge next) b c ∧ hit c = true := by
        induction rest generalizing visited with
        | nil => cases h
        | cons b rest ihr =>
          obtain ⟨hb, hsub⟩ := List.forall_mem_cons.1 hsub
          obtain ⟨found, u, hlook, ⟨rfl, -⟩ | ⟨-, hrest⟩⟩ := anyFrom_cons h
          · exact ⟨b, hb, ih hlook⟩
          · exact ihr hsub hrest
      obtain ⟨b, hb, c, hr, hhit⟩ := hany (fun _ hb => hb) h
      exact ⟨c, .head ⟨succs, hs, hb⟩ hr, hhit⟩

/-! ## A search without a hit -/

/-- What a search without a hit does to the list: it grows by vertices that are no hits and whose
successors are listed at the end. -/
structure Clean (hit : α → Bool) (next : α → Option (List α)) (visited visited' : List α) :
    Prop where
  sub : ∀ b ∈ visited, b ∈ visited'
  new : ∀ b ∈ visited', b ∉ visited → hit b = false ∧ ∀ c, Edge next b c → c ∈ visited'

omit [DecidableEq α] in
theorem Clean.refl : Clean hit next visited visited :=
  ⟨fun _ hb => hb, fun _ hb hn => absurd hb hn⟩

omit [DecidableEq α] in
theorem Clean.trans (h : Clean hit next visited visited')
    (h' : Clean hit next visited' visited'') : Clean hit next visited visited'' := by
  refine ⟨fun b hb => h'.sub b (h.sub b hb), fun b hb hn => ?_⟩
  by_cases hmid : b ∈ visited'
  · obtain ⟨hhit, hsucc⟩ := h.new b hmid hn
    exact ⟨hhit, fun c hc => h'.sub c (hsucc c hc)⟩
  · exact h'.new b hb hmid

theorem anyFrom_clean {succs : List α}
    (ih : ∀ {visited visited' : List α} {b : α}, look hit next n visited b =
      some (false, visited') → Clean hit next visited visited' ∧ b ∈ visited')
    (h : anyFrom (look hit next n) visited succs = some (false, visited')) :
    Clean hit next visited visited' ∧ ∀ b ∈ succs, b ∈ visited' := by
  induction succs generalizing visited with
  | nil =>
    cases h
    exact ⟨.refl, nofun⟩
  | cons b rest ihr =>
    obtain ⟨found, u, hlook, ⟨-, hr⟩ | ⟨rfl, hrest⟩⟩ := anyFrom_cons h
    · cases hr
    · obtain ⟨hclean, hb⟩ := ih hlook
      obtain ⟨hclean', hall⟩ := ihr hrest
      exact ⟨hclean.trans hclean', List.forall_mem_cons.2 ⟨hclean'.sub b hb, hall⟩⟩

/-- **The invariant of the search**: the vertex is entered, and nothing new leads off the list. -/
theorem look_clean (h : look hit next n visited a = some (false, visited')) :
    Clean hit next visited visited' ∧ a ∈ visited' := by
  induction n generalizing visited a visited' with
  | zero => cases h
  | succ n ih =>
    rcases look_succ h with ⟨ha, h⟩ | ⟨-, -, h⟩ | ⟨ha, hhit, succs, hs, h⟩
    · cases h
      exact ⟨.refl, ha⟩
    · cases h
    · obtain ⟨hclean, hall⟩ := anyFrom_clean ih h
      have hmem : a ∈ visited' := hclean.sub a (by simp)
      refine ⟨⟨fun b hb => hclean.sub b (by simp [hb]), fun b hb hn => ?_⟩, hmem⟩
      by_cases hba : b = a
      · subst hba
        refine ⟨hhit, ?_⟩
        rintro c ⟨succs', hs', hc⟩
        obtain rfl : succs = succs' := Option.some.inj (hs.symm.trans hs')
        exact hall c hc
      · exact hclean.new b hb (by simp [hn, hba])

/-- From an empty list, a search without a hit has entered all that is reached. -/
theorem look_complete (h : look hit next n [] a = some (false, visited')) {b : α}
    (hr : Relation.ReflTransGen (Edge next) a b) : b ∈ visited' ∧ hit b = false := by
  obtain ⟨hclean, ha⟩ := look_clean h
  have hmem : b ∈ visited' := by
    induction hr with
    | refl => exact ha
    | tail _ hstep ih => exact (hclean.new _ ih List.not_mem_nil).2 _ hstep
  exact ⟨hmem, (hclean.new b hmem List.not_mem_nil).1⟩

/-! ## The search ends -/

theorem look_grows (h : look hit next n visited a = some (found, visited')) :
    ∀ b ∈ visited, b ∈ visited' := by
  cases found with
  | false => exact (look_clean h).1.sub
  | true =>
    induction n generalizing visited a visited' with
    | zero => cases h
    | succ n ih =>
      rcases look_succ h with ⟨-, h⟩ | ⟨-, -, h⟩ | ⟨-, -, succs, -, h⟩
      · cases h
      · cases h
        exact fun b hb => List.mem_append_left _ hb
      · have hany {rest visited visited' : List α}
            (h : anyFrom (look hit next n) visited rest = some (true, visited')) :
            ∀ b ∈ visited, b ∈ visited' := by
          induction rest generalizing visited with
          | nil => cases h
          | cons b rest ihr =>
            obtain ⟨found, u, hlook, ⟨rfl, hr⟩ | ⟨rfl, hrest⟩⟩ := anyFrom_cons h
            · cases hr
              exact ih hlook
            · exact fun c hc => ihr hrest c ((look_clean hlook).1.sub c hc)
        exact fun b hb => hany h b (List.mem_append_left _ hb)

/-- How many of the vertices have not been entered. -/
def unvisited (vertices visited : List α) : Nat := vertices.countP fun a => a ∉ visited

theorem unvisited_mono {vertices : List α} (h : ∀ b ∈ visited, b ∈ visited') :
    unvisited vertices visited' ≤ unvisited vertices visited :=
  List.countP_mono_left fun b _ hb => by
    simp only [decide_eq_true_eq] at hb ⊢
    exact fun hm => hb (h b hm)

theorem unvisited_enter {vertices : List α} (hv : a ∈ vertices) (ha : a ∉ visited) :
    unvisited vertices (visited ++ [a]) < unvisited vertices visited := by
  obtain ⟨before, after, rfl⟩ := List.append_of_mem hv
  have hgrows : ∀ b ∈ visited, b ∈ visited ++ [a] := fun b hb => List.mem_append_left _ hb
  have hbefore := @unvisited_mono _ _ _ _ before hgrows
  have hafter := @unvisited_mono _ _ _ _ after hgrows
  unfold unvisited at hbefore hafter ⊢
  rw [List.countP_append, List.countP_append, List.countP_cons_of_neg (by simp),
    List.countP_cons_of_pos (by simpa using ha)]
  omega

/-- **Enough depth**: one more than there are vertices to enter. -/
theorem look_total {P : α → Prop} {vertices : List α} (hP : ∀ a, P a → a ∈ vertices ∧
      (hit a = false → ∃ succs, next a = some succs ∧ ∀ b ∈ succs, P b))
    (ha : P a) (hn : unvisited vertices visited < n) :
    ∃ result, look hit next n visited a = some result := by
  induction n generalizing visited a with
  | zero => exact absurd hn (Nat.not_lt_zero _)
  | succ n ih =>
    rw [look]
    split
    · exact ⟨_, rfl⟩
    · next hnew =>
      obtain ⟨hv, hsucc⟩ := hP a ha
      split
      · exact ⟨_, rfl⟩
      · next hhit =>
        obtain ⟨succs, hs, hall⟩ := hsucc (by simpa using hhit)
        have hlt := unvisited_enter hv hnew
        have hany {rest visited : List α} (hrest : ∀ b ∈ rest, P b)
            (hn : unvisited vertices visited < n) :
            ∃ result, anyFrom (look hit next n) visited rest = some result := by
          induction rest generalizing visited with
          | nil => exact ⟨_, rfl⟩
          | cons b rest ihr =>
            obtain ⟨hb, hrest⟩ := List.forall_mem_cons.1 hrest
            obtain ⟨⟨found, u⟩, hlook⟩ := ih hb hn
            rw [anyFrom, hlook]
            cases found with
            | true => exact ⟨_, rfl⟩
            | false => exact ihr hrest (Nat.lt_of_le_of_lt (unvisited_mono (look_grows hlook)) hn)
        rw [hs]
        exact hany hall (by omega)

/-- **The search is the reachability of a hit.** -/
theorem look_iff {vertices : List α} (hall : ∀ b, Relation.ReflTransGen (Edge next) a b →
      b ∈ vertices ∧ (hit b = false → (next b).isSome = true)) (hn : vertices.length < n) :
    ∃ found visited, look hit next n [] a = some (found, visited) ∧
      (found = true ↔ ∃ b, Relation.ReflTransGen (Edge next) a b ∧ hit b = true) := by
  have hP : ∀ b, Relation.ReflTransGen (Edge next) a b → b ∈ vertices ∧ (hit b = false →
      ∃ succs, next b = some succs ∧ ∀ c ∈ succs, Relation.ReflTransGen (Edge next) a c) := by
    intro b hr
    refine ⟨(hall b hr).1, fun hhit => ?_⟩
    obtain ⟨succs, hs⟩ := Option.isSome_iff_exists.1 ((hall b hr).2 hhit)
    exact ⟨succs, hs, fun c hc => hr.tail ⟨succs, hs, hc⟩⟩
  have hcount : unvisited vertices [] < n := Nat.lt_of_le_of_lt List.countP_le_length hn
  obtain ⟨⟨found, visited⟩, hlook⟩ := look_total hP .refl hcount
  refine ⟨found, visited, hlook, ?_⟩
  cases found with
  | true => exact ⟨fun _ => look_sound hlook, fun _ => rfl⟩
  | false =>
    refine ⟨nofun, ?_⟩
    rintro ⟨b, hr, hhit⟩
    exact absurd ((look_complete hlook hr).2.symm.trans hhit) Bool.false_ne_true

end Alcy.Lib.Visited
