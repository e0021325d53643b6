import Mathlib.Logic.Relation
import Mathlib.Logic.Function.Basic
import Mathlib.Data.List.Basic

/-! Depth-first search with three marks over a successor function. A vertex met
again while it is active is reported once and closed on the spot, so that the
search below it is not entered twice. The report is exact: some active vertex is
met again if and only if the successor relation has a cycle. -/

namespace Alcy.Lib.Search

inductive Mark where
  | fresh
  | active
  | done
  deriving Repr, DecidableEq, Inhabited

structure State (α : Type) where
  mark : α → Mark
  found : Bool

variable {α : Type} [DecidableEq α]

/-- One descent. `none` means the fuel ran out, which `visit_total` excludes. -/
def visit (succ : α → List α) : Nat → α → State α → Option (State α)
  | 0, _, _ => none
  | n + 1, a, s =>
    match s.mark a with
    | .done => some s
    | .active => some ⟨Function.update s.mark a .done, true⟩
    | .fresh => do
      let t ← (succ a).foldlM (fun s b => visit succ n b s)
        { s with mark := Function.update s.mark a .active }
      some { t with mark := Function.update t.mark a .done }

/-- Descents from each root in turn. -/
def visitAll (succ : α → List α) (n : Nat) (roots : List α) (s : State α) : Option (State α) :=
  roots.foldlM (fun s a => visit succ n a s) s

/-- The search before its first descent. -/
def start : State α := ⟨fun _ => .fresh, false⟩

/-- The successor relation. -/
def Edge (succ : α → List α) (a b : α) : Prop := b ∈ succ a

/-- Every descent out of a fresh vertex, taken apart. -/
theorem visit_fresh {succ : α → List α} {n : Nat} {a : α} {s t : State α}
    (hv : visit succ (n + 1) a s = some t) (ha : s.mark a = .fresh) :
    ∃ u, (succ a).foldlM (fun s b => visit succ n b s)
        { s with mark := Function.update s.mark a .active } = some u ∧
      t = { u with mark := Function.update u.mark a .done } := by
  simp only [visit, ha, bind, Option.bind_eq_some_iff] at hv
  obtain ⟨u, hu, ht⟩ := hv
  exact ⟨u, hu, (Option.some.inj ht).symm⟩

/-! ## Marks only move forward -/

/-- No vertex becomes fresh again, and the report is never taken back. -/
structure Grows (s t : State α) : Prop where
  fresh : ∀ a, t.mark a = .fresh → s.mark a = .fresh
  done : ∀ a, s.mark a = .done → t.mark a = .done
  found : s.found = true → t.found = true

omit [DecidableEq α] in
theorem Grows.refl (s : State α) : Grows s s := ⟨fun _ h => h, fun _ h => h, id⟩

omit [DecidableEq α] in
theorem Grows.trans {s t u : State α} (h : Grows s t) (k : Grows t u) : Grows s u :=
  ⟨fun a ha => h.fresh a (k.fresh a ha), fun a ha => k.done a (h.done a ha),
    fun hf => k.found (h.found hf)⟩

omit [DecidableEq α] in
/-- What each step of a completed fold keeps, the fold keeps. -/
theorem foldlM_invariant {σ : Type} {P : σ → Prop} {f : σ → α → Option σ} {l : List α} {s t : σ}
    (h : l.foldlM f s = some t) (hs : P s)
    (hf : ∀ b ∈ l, ∀ s t, P s → f s b = some t → P t) : P t := by
  induction l generalizing s with
  | nil => simp only [List.foldlM_nil, pure, Option.some.injEq] at h; exact h ▸ hs
  | cons b l ih =>
    simp only [List.foldlM_cons, bind, Option.bind_eq_some_iff] at h
    obtain ⟨u, hu, ht⟩ := h
    exact ih ht (hf b (by simp) s u hs hu) (fun c hc => hf c (by simp [hc]))

omit [DecidableEq α] in
theorem grows_foldlM {f : State α → α → Option (State α)} {l : List α} {s t : State α}
    (hf : ∀ b ∈ l, ∀ s t, f s b = some t → Grows s t) (h : l.foldlM f s = some t) :
    Grows s t :=
  foldlM_invariant h (.refl s) fun b hb _ _ hg hb' => hg.trans (hf b hb _ _ hb')

theorem visit_grows {succ : α → List α} {n : Nat} :
    ∀ {a : α} {s t : State α}, visit succ n a s = some t → Grows s t := by
  induction n with
  | zero => intro a s t h; simp [visit] at h
  | succ n ih =>
    intro a s t h
    cases ha : s.mark a with
    | done =>
      simp only [visit, ha, Option.some.injEq] at h
      exact h ▸ .refl s
    | active =>
      simp only [visit, ha, Option.some.injEq] at h
      subst h
      refine ⟨fun b hb => ?_, fun b hb => ?_, fun _ => rfl⟩ <;>
        by_cases hba : b = a <;> simp_all
    | fresh =>
      obtain ⟨u, hu, rfl⟩ := visit_fresh h ha
      have hg := grows_foldlM (fun b _ s t => ih) hu
      refine ⟨fun b hb => ?_, fun b hb => ?_, hg.found⟩
      · by_cases hba : b = a
        · subst hba; exact ha
        · simp only [ne_eq, hba, not_false_eq_true, Function.update_of_ne] at hb
          simpa [hba] using hg.fresh b hb
      · by_cases hba : b = a
        · subst hba; rw [ha] at hb; cases hb
        · simp only [ne_eq, hba, not_false_eq_true, Function.update_of_ne]
          exact hg.done b (by simpa [hba] using hb)

theorem visitAll_grows {succ : α → List α} {n : Nat} {roots : List α} {s t : State α}
    (h : visitAll succ n roots s = some t) : Grows s t :=
  grows_foldlM (fun _ _ _ _ => visit_grows) h

theorem visit_not_fresh {succ : α → List α} {n : Nat} {a : α} {s t : State α}
    (h : visit succ n a s = some t) : t.mark a ≠ .fresh := by
  cases n with
  | zero => simp [visit] at h
  | succ n =>
    cases ha : s.mark a with
    | done => simp only [visit, ha, Option.some.injEq] at h; simp [← h, ha]
    | active => simp only [visit, ha, Option.some.injEq] at h; simp [← h]
    | fresh =>
      obtain ⟨u, _, rfl⟩ := visit_fresh h ha
      simp

/-- A completed search has entered every root. -/
theorem visitAll_not_fresh {succ : α → List α} {n : Nat} {roots : List α} {s t : State α}
    (h : visitAll succ n roots s = some t) {a : α} (ha : a ∈ roots) : t.mark a ≠ .fresh := by
  obtain ⟨before, after, rfl⟩ := List.append_of_mem ha
  simp only [visitAll, List.foldlM_append, List.foldlM_cons, bind,
    Option.bind_eq_some_iff] at h
  obtain ⟨u, _, v, hv, hrest⟩ := h
  exact fun hf => visit_not_fresh hv ((visitAll_grows hrest).fresh a hf)

/-! ## Fuel -/

/-- How many of the listed vertices are still fresh. -/
def freshCount (vs : List α) (s : State α) : Nat := vs.countP fun a => s.mark a = .fresh

omit [DecidableEq α] in
theorem freshCount_mono {vs : List α} {s t : State α} (h : Grows s t) :
    freshCount vs t ≤ freshCount vs s :=
  List.countP_mono_left fun a _ ha => by simpa using h.fresh a (by simpa using ha)

theorem freshCount_activate {vs : List α} {s : State α} {a : α} (hv : a ∈ vs)
    (ha : s.mark a = .fresh) (m : Mark) (hm : m ≠ .fresh) :
    freshCount vs { s with mark := Function.update s.mark a m } < freshCount vs s := by
  simp only [freshCount]
  induction vs with
  | nil => simp at hv
  | cons b vs ih =>
    have hle : vs.countP (fun c => Function.update s.mark a m c = .fresh) ≤
        vs.countP (fun c => s.mark c = .fresh) :=
      List.countP_mono_left fun c _ hc => by
        by_cases hca : c = a <;> simp_all
    by_cases hba : b = a
    · subst hba
      simp [hm, ha]
      omega
    · have := ih (by simpa [Ne.symm hba] using hv)
      simp only [List.countP_cons, ne_eq, hba, not_false_eq_true, Function.update_of_ne]
      omega

/-- **Enough fuel.** When the listed vertices are closed under successors, one
unit of fuel more than there are fresh vertices completes a descent. -/
theorem visit_total {succ : α → List α} {vs : List α}
    (hclosed : ∀ a ∈ vs, ∀ b ∈ succ a, b ∈ vs) :
    ∀ (n : Nat) (a : α) (s : State α), a ∈ vs → freshCount vs s < n →
      ∃ t, visit succ n a s = some t := by
  intro n
  induction n with
  | zero => intro a s _ h; omega
  | succ n ih =>
    intro a s hav hn
    cases ha : s.mark a with
    | done => exact ⟨s, by simp [visit, ha]⟩
    | active => exact ⟨⟨Function.update s.mark a .done, true⟩, by simp [visit, ha]⟩
    | fresh =>
      have hlt := freshCount_activate hav ha .active (by simp)
      have hfold : ∀ (l : List α) (s : State α), (∀ b ∈ l, b ∈ vs) → freshCount vs s < n →
          ∃ t, l.foldlM (fun s b => visit succ n b s) s = some t := by
        intro l
        induction l with
        | nil => intro s _ _; exact ⟨s, rfl⟩
        | cons b l ihl =>
          intro s hl hs
          obtain ⟨t, ht⟩ := ih b s (hl b (by simp)) hs
          obtain ⟨u, hu⟩ := ihl t (fun c hc => hl c (by simp [hc]))
            (Nat.lt_of_le_of_lt (freshCount_mono (visit_grows ht)) hs)
          exact ⟨u, by simp [List.foldlM_cons, ht, hu]⟩
      obtain ⟨u, hu⟩ := hfold (succ a) { s with mark := Function.update s.mark a .active }
        (hclosed a hav) (by omega)
      exact ⟨{ u with mark := Function.update u.mark a .done }, by simp [visit, ha, hu]⟩

theorem visitAll_total {succ : α → List α} {vs : List α}
    (hclosed : ∀ a ∈ vs, ∀ b ∈ succ a, b ∈ vs) {n : Nat} (roots : List α)
    (hroots : ∀ a ∈ roots, a ∈ vs) (s : State α) (hn : freshCount vs s < n) :
    ∃ t, visitAll succ n roots s = some t := by
  induction roots generalizing s with
  | nil => exact ⟨s, rfl⟩
  | cons a roots ih =>
    obtain ⟨t, ht⟩ := visit_total hclosed n a s (hroots a (by simp)) hn
    obtain ⟨u, hu⟩ := ih (fun b hb => hroots b (by simp [hb])) t
      (Nat.lt_of_le_of_lt (freshCount_mono (visit_grows ht)) hn)
    exact ⟨u, by
      rw [visitAll, List.foldlM_cons, ht]
      exact hu⟩

/-! ## A report means a cycle -/

/-- The active vertices are ancestors of the vertex the search is about to look at. -/
def ActiveAbove (succ : α → List α) (s : State α) (a : α) : Prop :=
  ∀ b, s.mark b = .active → Relation.TransGen (Edge succ) b a

theorem visit_active {succ : α → List α} {n : Nat} :
    ∀ {a : α} {s t : State α}, visit succ n a s = some t →
      ∀ b, t.mark b = .active → s.mark b = .active := by
  induction n with
  | zero => intro a s t h; simp [visit] at h
  | succ n ih =>
    intro a s t h b hb
    cases ha : s.mark a with
    | done => simp only [visit, ha, Option.some.injEq] at h; rwa [h]
    | active =>
      simp only [visit, ha, Option.some.injEq] at h
      subst h
      by_cases hba : b = a <;> simp_all
    | fresh =>
      obtain ⟨u, hu, rfl⟩ := visit_fresh h ha
      have hfold : ∀ (l : List α) (s t : State α),
          l.foldlM (fun s b => visit succ n b s) s = some t →
          t.mark b = .active → s.mark b = .active := by
        intro l
        induction l with
        | nil => intro s t hl hb; simp at hl; rwa [hl]
        | cons c l ihl =>
          intro s t hl hb
          simp only [List.foldlM_cons, bind, Option.bind_eq_some_iff] at hl
          obtain ⟨v, hv, hl⟩ := hl
          exact ih hv b (ihl v t hl hb)
      by_cases hba : b = a
      · simp [hba] at hb
      · have := hfold _ _ _ hu (by simpa [hba] using hb)
        simpa [hba] using this

/-- **A report means a cycle**: an active vertex met again is its own ancestor. -/
theorem visit_sound {succ : α → List α} {n : Nat} :
    ∀ {a : α} {s t : State α}, visit succ n a s = some t → ActiveAbove succ s a →
      t.found = true → s.found = true ∨ ∃ b, Relation.TransGen (Edge succ) b b := by
  induction n with
  | zero => intro a s t h; simp [visit] at h
  | succ n ih =>
    intro a s t h hab hf
    cases ha : s.mark a with
    | done => simp only [visit, ha, Option.some.injEq] at h; exact .inl (h ▸ hf)
    | active => exact .inr ⟨a, hab a ha⟩
    | fresh =>
      obtain ⟨u, hu, rfl⟩ := visit_fresh h ha
      -- below `a`, the active vertices are `a` and the ancestors of `a`
      have hbelow : ∀ b ∈ succ a,
          ActiveAbove succ { s with mark := Function.update s.mark a .active } b := by
        intro b hb c hc
        by_cases hca : c = a
        · subst hca; exact .single hb
        · exact (hab c (by simpa [hca] using hc)).tail hb
      have hfold : ∀ (l : List α) (s : State α), (∀ b ∈ l, ActiveAbove succ s b) →
          l.foldlM (fun s b => visit succ n b s) s = some u →
          s.found = true ∨ ∃ b, Relation.TransGen (Edge succ) b b := by
        intro l
        induction l with
        | nil =>
          intro s _ hrun
          simp only [List.foldlM_nil, pure, Option.some.injEq] at hrun
          exact .inl (hrun ▸ hf)
        | cons c l ihl =>
          intro s hl hrun
          simp only [List.foldlM_cons, bind, Option.bind_eq_some_iff] at hrun
          obtain ⟨v, hv, hrest⟩ := hrun
          rcases ihl v (fun b hb d hd => hl b (by simp [hb]) d (visit_active hv d hd)) hrest with
            hvf | hcyc
          · exact ih hv (hl c (by simp)) hvf
          · exact .inr hcyc
      exact hfold (succ a) { s with mark := Function.update s.mark a .active } hbelow hu

/-! ## No report means no cycle -/

/-- Without a report, what is done is closed under successors and free of cycles. -/
structure Closed (succ : α → List α) (s : State α) : Prop where
  next : ∀ a, s.mark a = .done → ∀ b ∈ succ a, s.mark b = .done
  acyclic : ∀ a, s.mark a = .done → ¬ Relation.TransGen (Edge succ) a a

omit [DecidableEq α] in
theorem Closed.reach {succ : α → List α} {s : State α} (hc : Closed succ s) {a b : α}
    (hab : Relation.TransGen (Edge succ) a b) (ha : s.mark a = .done) : s.mark b = .done := by
  induction hab with
  | single h => exact hc.next a ha _ h
  | tail _ h ih => exact hc.next _ ih _ h

/-- A descent that reports nothing leaves the active vertices as they were, and
its own vertex done. -/
theorem visit_complete {succ : α → List α} {n : Nat} :
    ∀ {a : α} {s t : State α}, visit succ n a s = some t → t.found = false → Closed succ s →
      Closed succ t ∧ t.mark a = .done ∧ ∀ b, t.mark b = .active ↔ s.mark b = .active := by
  induction n with
  | zero => intro a s t h; simp [visit] at h
  | succ n ih =>
    intro a s t h hf hc
    cases ha : s.mark a with
    | done =>
      simp only [visit, ha, Option.some.injEq] at h
      subst h
      exact ⟨hc, ha, fun _ => Iff.rfl⟩
    | active => simp only [visit, ha, Option.some.injEq] at h; subst h; simp at hf
    | fresh =>
      obtain ⟨u, hu, rfl⟩ := visit_fresh h ha
      have hfold : ∀ (l : List α) (s : State α),
          l.foldlM (fun s b => visit succ n b s) s = some u → Closed succ s →
          Closed succ u ∧ (∀ b ∈ l, u.mark b = .done) ∧
            ∀ b, u.mark b = .active ↔ s.mark b = .active := by
        intro l
        induction l with
        | nil =>
          intro s hl hs
          simp at hl
          exact hl ▸ ⟨hs, by simp, fun _ => Iff.rfl⟩
        | cons c l ihl =>
          intro s hl hs
          simp only [List.foldlM_cons, bind, Option.bind_eq_some_iff] at hl
          obtain ⟨v, hv, hrest⟩ := hl
          have hgv : Grows v u := grows_foldlM (fun _ _ _ _ => visit_grows) hrest
          have hvf : v.found = false := by
            cases hvf : v.found with
            | false => rfl
            | true => rw [hgv.found hvf] at hf; cases hf
          obtain ⟨hcv, hdv, hav⟩ := ih hv hvf hs
          obtain ⟨hcu, hdu, hau⟩ := ihl v hrest hcv
          refine ⟨hcu, fun b hb => ?_, fun b => (hau b).trans (hav b)⟩
          rcases List.mem_cons.mp hb with rfl | hb
          · exact hgv.done _ hdv
          · exact hdu b hb
      have hclosed : Closed succ { s with mark := Function.update s.mark a .active } := by
        refine ⟨fun b hb c hbc => ?_, fun b hb => ?_⟩ <;>
          have hba : b ≠ a := by rintro rfl; simp at hb
        · have hcd := hc.next b (by simpa [hba] using hb) c hbc
          have hca : c ≠ a := by rintro rfl; rw [ha] at hcd; cases hcd
          simpa [hca] using hcd
        · exact hc.acyclic b (by simpa [hba] using hb)
      obtain ⟨hcu, hdu, hau⟩ := hfold (succ a) _ hu hclosed
      have hua : u.mark a = .active := (hau a).mpr (by simp)
      have hdone : ∀ b, Function.update u.mark a .done b = .done ↔ b = a ∨ u.mark b = .done := by
        intro b; by_cases hba : b = a <;> simp [hba]
      refine ⟨⟨fun b hb c hbc => ?_, fun b hb hcyc => ?_⟩, by simp, fun b => ?_⟩
      · rcases (hdone b).mp hb with rfl | hb
        · exact (hdone c).mpr (.inr (hdu c hbc))
        · exact (hdone c).mpr (.inr (hcu.next b hb c hbc))
      · -- a cycle through `a` would have closed `a` before its own descent ended
        rcases (hdone b).mp hb with rfl | hb
        · obtain ⟨c, hbc, hcb⟩ := Relation.TransGen.head'_iff.mp hcyc
          rcases Relation.reflTransGen_iff_eq_or_transGen.mp hcb with heq | hcb
          · have := hdu c hbc
            rw [← heq, hua] at this
            cases this
          · have := hcu.reach hcb (hdu c hbc)
            rw [hua] at this
            cases this
        · exact hcu.acyclic b hb hcyc
      · by_cases hba : b = a
        · simp [hba, ha]
        · simpa [hba] using hau b

/-- **The report is exact.** A search over all vertices meets an active vertex
again if and only if some vertex reaches itself. -/
theorem visitAll_found_iff {succ : α → List α} {n : Nat} {roots : List α} {t : State α}
    (h : visitAll succ n roots start = some t)
    (hroots : ∀ a b, Edge succ a b → a ∈ roots) :
    t.found = true ↔ ∃ a, Relation.TransGen (Edge succ) a a := by
  have hrun : ∀ (l : List α) (s : State α), (∀ b, s.mark b ≠ .active) →
      visitAll succ n l s = some t →
      (t.found = true → s.found = true ∨ ∃ a, Relation.TransGen (Edge succ) a a) ∧
      (t.found = false → Closed succ s → Closed succ t ∧ ∀ a ∈ l, t.mark a = .done) := by
    intro l
    induction l with
    | nil =>
      intro s _ hl
      simp only [visitAll, List.foldlM_nil, pure, Option.some.injEq] at hl
      subst hl
      exact ⟨.inl, fun _ hc => ⟨hc, by simp⟩⟩
    | cons a l ih =>
      intro s hna hl
      simp only [visitAll, List.foldlM_cons, bind, Option.bind_eq_some_iff] at hl
      obtain ⟨u, hu, hrest⟩ := hl
      obtain ⟨hs, hcl⟩ := ih u (fun b hb => hna b (visit_active hu b hb)) hrest
      have hgu : Grows u t := visitAll_grows hrest
      refine ⟨fun hf => ?_, fun hf hc => ?_⟩
      · rcases hs hf with huf | hcyc
        · exact visit_sound hu (fun b hb => absurd hb (hna b)) huf
        · exact .inr hcyc
      · have huf : u.found = false := by
          cases huf : u.found with
          | false => rfl
          | true => rw [hgu.found huf] at hf; cases hf
        obtain ⟨hcu, hdu, _⟩ := visit_complete hu huf hc
        obtain ⟨hct, hdt⟩ := hcl hf hcu
        refine ⟨hct, fun b hb => ?_⟩
        rcases List.mem_cons.mp hb with rfl | hb
        · exact hgu.done _ hdu
        · exact hdt b hb
  obtain ⟨hs, hc⟩ := hrun roots start (by simp [start]) h
  constructor
  · intro hf
    rcases hs hf with h0 | hcyc
    · simp [start] at h0
    · exact hcyc
  · rintro ⟨a, hcyc⟩
    cases hf : t.found with
    | true => rfl
    | false =>
      obtain ⟨hct, hdt⟩ := hc hf ⟨by simp [start], by simp [start]⟩
      obtain ⟨b, hab, _⟩ := Relation.TransGen.head'_iff.mp hcyc
      exact absurd hcyc (hct.acyclic a (hdt a (hroots a b hab)))

end Alcy.Lib.Search
