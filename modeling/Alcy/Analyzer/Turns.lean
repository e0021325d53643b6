import Alcy.Analyzer.Provided

/-! # What becomes of a `use`

When the walk is over every `use` has had its turn, and what its turn left is still there, on cyclic
trees as well (`resolveAll_hadTurn`).
-/
namespace Alcy.Analyzer.Resolve
open Alcy.Ast Alcy.Diag
open Lib.Search (Mark)
open Tree (namespaces useMember useName)

variable {t : Tree}

/-! ## Nothing is taken back -/

/-- Imports and diagnostics are only added. -/
structure Grown (s s' : ExportState) : Prop where
  bag : s.bag <+: s'.bag
  imports : ∀ c, s.imports c <+: s'.imports c

theorem Grown.refl (s : ExportState) : Grown s s := ⟨List.prefix_rfl, fun _ => List.prefix_rfl⟩

theorem Grown.trans {s u v : ExportState} (h : Grown s u) (k : Grown u v) : Grown s v :=
  ⟨h.bag.trans k.bag, fun c => (h.imports c).trans (k.imports c)⟩

theorem grown_log (module place : Nat) (s : ExportState) : Grown s (s.log module place) :=
  ⟨List.prefix_rfl, fun _ => List.prefix_rfl⟩

theorem grown_setMark (module : Nat) (mark : Mark) (s : ExportState) :
    Grown s (s.setMark module mark) :=
  ⟨List.prefix_rfl, fun _ => List.prefix_rfl⟩

theorem grown_report (code : Nat) (span : Span) (message : String) (s : ExportState) :
    Grown s (s.report code span message) :=
  ⟨List.prefix_append _ _, fun _ => List.prefix_rfl⟩

theorem grown_addImport (module : Nat) (use : UseItem) (name : String) (ns : Namespace)
    (target : Nat) (member : String) (s : ExportState) :
    Grown s (addImport t module use name ns target member s) := by
  unfold addImport
  split
  · exact grown_report _ _ _ s
  split
  · exact grown_report _ _ _ s
  · refine ⟨List.prefix_rfl, fun c => ?_⟩
    by_cases hc : c = module
    · subst hc
      simp [ExportState.push]
    · simp [ExportState.push, hc]

theorem grown_addAll (module : Nat) (use : UseItem) (new : List Import) (s : ExportState) :
    Grown s (addAll t module use new s) := by
  induction new generalizing s with
  | nil => exact .refl s
  | cons imp new ih => exact (grown_addImport ..).trans (ih _)

theorem grown_settleUse (module : Nat) (use : UseItem) (s : ExportState) :
    Grown s (settleUse t module use s) := by
  cases hc : t.useModule module use with
  | error message =>
    rw [settleUse, hc]
    exact grown_report _ _ _ s
  | ok current =>
    rw [settleUse_eq hc]
    split
    · exact grown_report _ _ _ s
    · exact grown_addAll _ _ _ s

theorem grown_resolveExports {fuel module : Nat} {s s' : ExportState}
    (h : resolveExports t fuel module s = some s') : Grown s s' :=
  resolveExports_invariant (P := Grown s) (fun _ _ _ hp => ⟨hp.bag, hp.imports⟩)
    (fun _ _ _ _ hp => hp.trans (grown_report ..)) (fun _ _ _ hp => ⟨hp.bag, hp.imports⟩)
    (fun _ _ _ hp => hp.trans (grown_settleUse ..)) h (.refl s)

theorem grown_turn {fuel module : Nat} {s s' : ExportState} {u : UseItem × Nat}
    (h : turn t (resolveExports t fuel) module s u = some s') : Grown s s' := by
  obtain ⟨v, rfl, ⟨_, rfl⟩ | ⟨target, _, hv⟩⟩ := turn_cases h
  · exact (grown_log ..).trans (grown_settleUse ..)
  · exact ((grown_log ..).trans (grown_resolveExports hv)).trans (grown_settleUse ..)

/-! ## Every `use` has its turn -/

/-- The `use` was settled, and what that left is still there. -/
def HadTurn (t : Tree) (module : Nat) (use : UseItem) (s : ExportState) : Prop :=
  ∃ v, Grown (settleUse t module use v) s

theorem HadTurn.grown {module : Nat} {use : UseItem} {s s' : ExportState}
    (h : HadTurn t module use s) (hg : Grown s s') : HadTurn t module use s' := by
  obtain ⟨v, hv⟩ := h
  exact ⟨v, hv.trans hg⟩

/-- Between two states a module that stopped being fresh settled all of its uses. -/
structure Turns (t : Tree) (module : Nat) (s s' : ExportState) : Prop where
  fresh : s'.mark module = .fresh → s.mark module = .fresh
  grown : Grown s s'
  turns : s.mark module = .fresh → s'.mark module ≠ .fresh →
    ∀ u ∈ t.uses module, HadTurn t module u.1 s'

/-- Nothing was settled in between. -/
theorem Turns.of_mark {module : Nat} {s s' : ExportState} (hm : s'.mark module = s.mark module)
    (hg : Grown s s') : Turns t module s s' :=
  ⟨fun h => hm ▸ h, hg, fun h h' => absurd (hm.trans h) h'⟩

theorem Turns.trans {module : Nat} {s u v : ExportState} (h : Turns t module s u)
    (k : Turns t module u v) : Turns t module s v := by
  refine ⟨fun hf => h.fresh (k.fresh hf), h.grown.trans k.grown, fun hs hv x hx => ?_⟩
  by_cases hu : u.mark module = .fresh
  · exact k.turns hu hv x hx
  · exact (h.turns hs hu x hx).grown k.grown

/-- The turns of one module settle its uses, and those of others as the descents do. -/
theorem turns_uses {fuel module : Nat}
    (hv : ∀ m s s', resolveExports t fuel m s = some s' → ∀ k, Turns t k s s') :
    ∀ (l : List (UseItem × Nat)) {s s' : ExportState},
      l.foldlM (turn t (resolveExports t fuel) module) s = some s' →
      Grown s s' ∧ (∀ u ∈ l, HadTurn t module u.1 s') ∧ ∀ k, k ≠ module → Turns t k s s'
  | [], s, s', h => by
    cases h
    exact ⟨.refl s, by simp, fun k _ => .of_mark rfl (.refl s)⟩
  | u :: l, s, s', h => by
    simp only [List.foldlM_cons, Option.bind_eq_bind, Option.bind_eq_some_iff] at h
    obtain ⟨v, hturn, hrest⟩ := h
    obtain ⟨hg, hl, hk⟩ := turns_uses hv l hrest
    obtain ⟨w, rfl, hw⟩ := turn_cases hturn
    have hset := settles_settleUse (t := t) module u.1 w
    refine ⟨(grown_turn hturn).trans hg, fun x hx => ?_, fun k hkm => ?_⟩
    · rcases List.mem_cons.1 hx with rfl | hx
      · exact ⟨w, hg⟩
      · exact hl x hx
    · have hlog : Turns t k s (s.log module u.2) := .of_mark rfl (grown_log ..)
      have hdescent : Turns t k s w := by
        rcases hw with ⟨_, rfl⟩ | ⟨target, _, hw⟩
        · exact hlog
        · exact hlog.trans (hv target _ _ hw k)
      exact (hdescent.trans (.of_mark (by rw [hset.mark]) (grown_settleUse ..))).trans (hk k hkm)

theorem resolveExports_turns {fuel : Nat} : ∀ {module : Nat} {s s' : ExportState},
    resolveExports t fuel module s = some s' → ∀ k, Turns t k s s' := by
  induction fuel with
  | zero => intro module s s' h; simp [resolveExports] at h
  | succ fuel ih =>
    intro module s s' h k
    have hg := grown_resolveExports h
    cases hm : s.mark module with
    | done =>
      simp only [resolveExports, hm, Option.some.injEq] at h
      exact .of_mark (by rw [h]) hg
    | active =>
      simp only [resolveExports, hm, Option.some.injEq] at h
      subst h
      by_cases hk : k = module
      · subst hk
        exact ⟨by simp [ExportState.setMark], hg, fun hf => by rw [hm] at hf; cases hf⟩
      · exact .of_mark (by simp [ExportState.setMark, ExportState.report, hk]) hg
    | fresh =>
      obtain ⟨u, hu, rfl⟩ := resolveExports_fresh h hm
      obtain ⟨-, hall, hother⟩ := turns_uses (fun _ _ _ h => ih h) (t.uses module) hu
      by_cases hk : k = module
      · subst hk
        exact ⟨by simp [ExportState.setMark], hg, fun _ _ x hx => (hall x hx).grown (grown_setMark ..)⟩
      · have h1 : Turns t k s (s.setMark module .active) :=
          .of_mark (by simp [ExportState.setMark, hk]) (grown_setMark ..)
        have h2 : Turns t k u (u.setMark module .done) :=
          .of_mark (by simp [ExportState.setMark, hk]) (grown_setMark ..)
        exact (h1.trans (hother k hk)).trans h2

/-- **Every `use` has its turn**, on cyclic trees as well. -/
theorem resolveAll_hadTurn {s : ExportState} (h : resolveAll t = some s) {module : Nat}
    {u : UseItem × Nat} (hu : u ∈ t.uses module) : HadTurn t module u.1 s := by
  have hm : module < t.modules.length := by
    by_contra hm
    have hitem := (Tree.mem_uses module u).1 hu
    rw [(t.node_of_le (Nat.le_of_not_lt hm)).1] at hitem
    cases hitem
  have hturns : Turns t module .start s :=
    Lib.Search.foldlM_invariant (P := Turns t module .start) h (.of_mark rfl (.refl _))
      fun _ _ _ _ hp hs => hp.trans (resolveExports_turns hs module)
  exact hturns.turns rfl (resolveAll_not_fresh h hm) u hu

end Alcy.Analyzer.Resolve
