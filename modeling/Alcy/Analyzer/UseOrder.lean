import Alcy.Analyzer.Provided
import Mathlib.Data.List.Pairwise
import Mathlib.Data.List.Perm.Basic

/-! # The order of `use` items

Public uses are resolved before private ones, in each group in the order of the items. A private
`use` of its own module finds the re-exports complete; a public one finds those that were resolved
before it. Where no public `use` is of its own module, each import list is the list of what its
uses provide, looked up in the finished lists, and no order makes a difference.
-/
namespace Alcy.Analyzer.Resolve
open Alcy.Ast Alcy.Diag
open Lib.Search (Mark)
open Tree (namespaces useMember useName)

/-- A public `use` leads back to its own module, for a member that is not declared there. -/
def SelfReexport (t : Tree) (module : Nat) (use : UseItem) : Prop :=
  use.isPub = true ∧ t.useModule module use = .ok module ∧ t.isLocal module (useMember use) = false

def NoSelfReexport (t : Tree) : Prop :=
  ∀ module, ∀ u ∈ t.uses module, ¬ SelfReexport t module u.1

variable {t : Tree} {imports imports' : Nat → List Import}

/-! ## Lookups in import lists -/

theorem findReexport_congr {l l' : List Import}
    (h : l.filter Import.isPub = l'.filter Import.isPub) (member : String) (ns : Namespace) :
    findReexport l member ns = findReexport l' member ns := by
  have hpub (l : List Import) : findReexport l member ns =
      (l.filter Import.isPub).find? fun imp => imp.ns = ns && imp.name = member := by
    simp [findReexport, List.find?_filter, Bool.and_assoc]
  rw [hpub, hpub, h]

/-- A list without two imports of one name finds the same one in every order. -/
theorem findReexport_perm {l l' : List Import} (h : l.Perm l') (hd : Distinct l) (member : String)
    (ns : Namespace) : findReexport l member ns = findReexport l' member ns := by
  have : Std.Symm fun a b : Import => ¬ (a.ns = b.ns ∧ a.name = b.name) :=
    ⟨fun _ _ hab hba => hab ⟨hba.1.symm, hba.2.symm⟩⟩
  have hkey {l : List Import} {imp : Import} (hf : findReexport l member ns = some imp) :
      imp.ns = ns ∧ imp.name = member := by
    have hp := List.find?_some hf
    simp only [Bool.and_eq_true, decide_eq_true_eq] at hp
    exact ⟨hp.1.2, hp.2⟩
  cases hf : findReexport l member ns with
  | none =>
    rw [findReexport, List.find?_eq_none] at hf
    exact (List.find?_eq_none.2 fun imp himp => hf imp (h.mem_iff.2 himp)).symm
  | some imp =>
    have hmem := List.mem_of_find?_eq_some hf
    cases hf' : findReexport l' member ns with
    | none =>
      rw [findReexport, List.find?_eq_none] at hf'
      exact absurd (List.find?_some hf) (hf' imp (h.mem_iff.1 hmem))
    | some imp' =>
      by_contra hne
      have hmem' := h.mem_iff.2 (List.mem_of_find?_eq_some hf')
      refine hd.forall hmem hmem' (fun heq => hne (congrArg some heq)) ?_
      exact ⟨(hkey hf).1.trans (hkey hf').1.symm, (hkey hf).2.trans (hkey hf').2.symm⟩

theorem provided_congr {module : Nat} {use : UseItem}
    (h : ∀ c, t.useModule module use = .ok c → t.isLocal c (useMember use) = false → ∀ ns,
      findReexport (imports c) (useMember use) ns = findReexport (imports' c) (useMember use) ns) :
    provided t imports module use = provided t imports' module use := by
  unfold provided
  cases hc : t.useModule module use with
  | error message => rfl
  | ok current =>
    by_cases hl : t.isLocal current (useMember use) = true
    · simp only [hl, if_true]
    · have hf := h current hc (by simpa using hl)
      simp only [hl, if_false, Bool.false_eq_true, hf]

/-- After a private `use` of a module come private ones only. -/
theorem uses_pairwise (t : Tree) (module : Nat) :
    (t.uses module).Pairwise fun u v => u.1.isPub = false → v.1.isPub = false := by
  refine List.pairwise_append.2 ⟨?_, ?_, ?_⟩
  · refine List.pairwise_of_forall_mem_list fun u hu _ _ hpriv => ?_
    simp [(List.mem_filter.1 hu).2] at hpriv
  · refine List.pairwise_of_forall_mem_list fun _ _ v hv _ => ?_
    simpa using (List.mem_filter.1 hv).2
  · intro _ _ v hv _
    simpa using (List.mem_filter.1 hv).2

theorem later_private {module : Nat} {p l : List (UseItem × Nat)} (h : t.uses module = p ++ l)
    {u v : UseItem × Nat} (hu : u ∈ p) (hv : v ∈ l) (hpriv : u.1.isPub = false) :
    v.1.isPub = false := by
  have hp := uses_pairwise t module
  rw [h] at hp
  exact (List.pairwise_append.1 hp).2.2 u hu v hv hpriv

/-- What private uses provide is no re-export. -/
theorem filter_provided {module : Nat} {l : List (UseItem × Nat)}
    (h : ∀ u ∈ l, u.1.isPub = false) :
    (l.flatMap fun u => provided t imports module u.1).filter Import.isPub = [] := by
  refine List.filter_eq_nil_iff.2 fun imp himp => ?_
  obtain ⟨u, hu, himp⟩ := List.mem_flatMap.1 himp
  simp [(mem_provided himp).2, h u hu]

/-! ## What a resolution without errors leaves -/

/-- The import list of a module is what its uses provide, and each of them provides something. -/
structure Solved (t : Tree) (imports : Nat → List Import) (module : Nat) : Prop where
  imports_eq : imports module = (t.uses module).flatMap fun u => provided t imports module u.1
  found : ∀ u ∈ t.uses module, provided t imports module u.1 ≠ []

/-- Each path leads to a module that is done, or to the module itself for a local or from a private
`use`. -/
theorem provided_eq_of_done {s s' : ExportState} {module : Nat} {u : UseItem × Nat}
    (hdone : ∀ c, t.useTarget module u.1 = some c → s'.imports c = s.imports c)
    (hself : t.useModule module u.1 = .ok module → t.isLocal module (useMember u.1) = false →
      (s'.imports module).filter Import.isPub = (s.imports module).filter Import.isPub) :
    provided t s'.imports module u.1 = provided t s.imports module u.1 := by
  refine provided_congr fun c hc hl ns => ?_
  by_cases hm : c = module
  · subst hm
    exact findReexport_congr (hself hc hl) _ ns
  · rw [hdone c (Tree.useTarget_eq_some.2 ⟨hc, hl, hm⟩)]

/-- Between the calls of a walk that reports nothing. -/
structure Settled (t : Tree) (s : ExportState) : Prop where
  clean : s.bag = []
  fresh : ∀ c, s.mark c = .fresh → s.imports c = []
  done : ∀ c, s.mark c = .done → Solved t s.imports c
  targets : ∀ c, s.mark c = .done → ∀ u ∈ t.uses c, ∀ d, t.useTarget c u.1 = some d →
    s.mark d = .done

/-- While a module is in progress and the uses `p` are settled. -/
structure Partway (t : Tree) (module : Nat) (p : List (UseItem × Nat)) (s : ExportState) :
    Prop where
  settled : Settled t s
  active : s.mark module = .active
  imports_eq : s.imports module = p.flatMap fun u => provided t s.imports module u.1
  found : ∀ u ∈ p, provided t s.imports module u.1 ≠ []
  targets : ∀ u ∈ p, ∀ d, t.useTarget module u.1 = some d → s.mark d = .done

/-- The lists of the modules that are done, and of what they look up, stay as they are. -/
theorem Settled.transfer {s s' : ExportState} (h : Settled t s) (hb : s'.bag = [])
    (hm : ∀ c, s'.mark c = .done ↔ s.mark c = .done)
    (hf : ∀ c, s'.mark c = .fresh → s.mark c = .fresh)
    (hi : ∀ c, s.mark c = .done ∨ s.mark c = .fresh → s'.imports c = s.imports c) :
    Settled t s' := by
  have hsame (c : Nat) (hc : s.mark c = .done) (u : UseItem × Nat) (hu : u ∈ t.uses c) :
      provided t s'.imports c u.1 = provided t s.imports c u.1 := by
    refine provided_eq_of_done (fun d hd => hi d (.inl (h.targets c hc u hu d hd))) fun _ _ => ?_
    rw [hi c (.inl hc)]
  refine ⟨hb, fun c hc => (hi c (.inr (hf c hc))).trans (h.fresh c (hf c hc)), fun c hc => ?_,
    fun c hc u hu d hd => (hm d).2 (h.targets c ((hm c).1 hc) u hu d hd)⟩
  have hc := (hm c).1 hc
  refine ⟨?_, fun u hu => ?_⟩
  · rw [hi c (.inl hc), (h.done c hc).imports_eq]
    exact List.flatMap_congr fun u hu => (hsame c hc u hu).symm
  · rw [hsame c hc u hu]
    exact (h.done c hc).found u hu

theorem Partway.start {module : Nat} {s : ExportState} (h : Settled t s)
    (hm : s.mark module = .fresh) : Partway t module [] (s.setMark module .active) := by
  have hmark (c : Nat) : (s.setMark module .active).mark c =
      if c = module then .active else s.mark c := by
    simp [ExportState.setMark, Function.update_apply]
  refine ⟨h.transfer h.clean (fun c => ?_) (fun c hc => ?_) fun _ _ => rfl, ?_, ?_, by simp,
    by simp⟩
  · rw [hmark]
    split
    · next hc => simp [hc, hm]
    · rfl
  · rw [hmark] at hc
    split at hc
    · cases hc
    · exact hc
  · simp [ExportState.setMark]
  · exact h.fresh module hm

/-- A `use` of its own module that is not local is private. -/
theorem NoSelfReexport.isPub (hself : NoSelfReexport t) {module : Nat} {u : UseItem × Nat}
    (hu : u ∈ t.uses module) (hc : t.useModule module u.1 = .ok module)
    (hl : t.isLocal module (useMember u.1) = false) : u.1.isPub = false := by
  cases hp : u.1.isPub with
  | false => rfl
  | true => exact absurd ⟨hp, hc, hl⟩ (hself module u hu)

/-- A path that leads nowhere is reported. -/
theorem useModule_of_clean {module : Nat} {use : UseItem} {s : ExportState}
    (h : (settleUse t module use s).bag = []) : ∃ c, t.useModule module use = .ok c := by
  cases hc : t.useModule module use with
  | error message =>
    simp only [settleUse, hc] at h
    exact absurd h (report_bag_ne_nil _ _ _ _)
  | ok current => exact ⟨current, rfl⟩

/-- A `use` that is settled without a report provides something, and records it. -/
theorem settleUse_of_clean {module : Nat} {use : UseItem} {s : ExportState}
    (h : (settleUse t module use s).bag = []) : provided t s.imports module use ≠ [] ∧
      settleUse t module use s = s.append module (provided t s.imports module use) := by
  obtain ⟨c, hc⟩ := useModule_of_clean h
  rw [settleUse_eq hc] at h ⊢
  split at h
  · exact absurd h (report_bag_ne_nil _ _ _ _)
  · next hne =>
    rw [if_neg hne]
    exact ⟨hne, addAll_of_clean (fun imp himp => (mem_provided himp).2) h⟩

theorem Partway.turn (hself : NoSelfReexport t) {module : Nat} {p l : List (UseItem × Nat)}
    {u : UseItem × Nat} {s v : ExportState} (hp : t.uses module = p ++ u :: l)
    (h : Partway t module p s) (hv : Settled t v) (hext : Extends (fun _ => False) s v)
    (htarget : ∀ c, t.useTarget module u.1 = some c → v.mark c = .done)
    (hclean : (settleUse t module u.1 v).bag = []) :
    Partway t module (p ++ [u]) (settleUse t module u.1 v) := by
  obtain ⟨hfound, heq⟩ := settleUse_of_clean hclean
  rw [heq] at hclean ⊢
  generalize hnew : provided t v.imports module u.1 = new at heq hclean hfound
  have hactive : v.mark module = .active := hext.active module h.active
  have himports : v.imports module = s.imports module :=
    hext.imports module (by rw [h.active]; decide) id
  have hother (c : Nat) (hc : c ≠ module) : (v.append module new).imports c = v.imports c := by
    simp [ExportState.append, hc]
  have hne (c : Nat) (hc : v.mark c = .done) : c ≠ module := by
    rintro rfl
    simp [hactive] at hc
  -- what the uses up to this one look up does not change when it is settled
  have hmem : ∀ x ∈ p ++ [u], x ∈ t.uses module := by
    intro x hx
    rw [hp]
    simp only [List.mem_append, List.mem_cons, List.not_mem_nil, or_false] at hx ⊢
    tauto
  have hlater (x : UseItem × Nat) (hx : x ∈ p ++ [u]) (hpriv : x.1.isPub = false) :
      u.1.isPub = false := by
    rcases List.mem_append.1 hx with hx | hx
    · exact later_private hp hx (List.mem_cons_self ..) hpriv
    · cases List.mem_singleton.1 hx
      exact hpriv
  have hkeep (x : UseItem × Nat) (hx : x ∈ p ++ [u])
      (hd : ∀ c, t.useTarget module x.1 = some c → v.mark c = .done) :
      provided t (v.append module new).imports module x.1 = provided t v.imports module x.1 := by
    refine provided_eq_of_done (fun c hc => hother c (hne c (hd c hc))) fun hc hl => ?_
    have hpriv := hlater x hx (hself.isPub (hmem x hx) hc hl)
    have hnil : new.filter Import.isPub = [] := by
      refine List.filter_eq_nil_iff.2 fun imp himp => ?_
      rw [← hnew] at himp
      simp [(mem_provided himp).2, hpriv]
    rw [append_imports, List.filter_append, hnil, List.append_nil]
  have hdescent (x : UseItem × Nat) (hx : x ∈ p) :
      provided t v.imports module x.1 = provided t s.imports module x.1 := by
    refine provided_eq_of_done (fun c hc => ?_) fun _ _ => by rw [himports]
    exact hext.imports c (by rw [h.targets x hx c hc]; decide) id
  have hpast (x : UseItem × Nat) (hx : x ∈ p) (c : Nat)
      (hc : t.useTarget module x.1 = some c) : v.mark c = .done :=
    hext.done c (h.targets x hx c hc)
  have hlast := hkeep u (by simp) htarget
  refine ⟨hv.transfer hclean (fun _ => Iff.rfl) (fun _ => id) fun c hc => hother c ?_, hactive, ?_,
    fun x hx => ?_, fun x hx => ?_⟩
  · rintro rfl
    simp [hactive] at hc
  · rw [append_imports, himports, h.imports_eq, List.flatMap_append, List.flatMap_singleton, hlast,
      hnew]
    congr 1
    refine List.flatMap_congr fun x hx => ?_
    rw [hkeep x (List.mem_append_left _ hx) (hpast x hx), hdescent x hx]
  · rcases List.mem_append.1 hx with hx | hx
    · rw [hkeep x (List.mem_append_left _ hx) (hpast x hx), hdescent x hx]
      exact h.found x hx
    · cases List.mem_singleton.1 hx
      rw [hlast, hnew]
      exact hfound
  · rcases List.mem_append.1 hx with hx | hx
    · exact hpast x hx
    · cases List.mem_singleton.1 hx
      exact htarget

theorem Partway.finish {module : Nat} {s : ExportState} (h : Partway t module (t.uses module) s) :
    Settled t (s.setMark module .done) := by
  have hmark (c : Nat) : (s.setMark module .done).mark c =
      if c = module then .done else s.mark c := by
    simp [ExportState.setMark, Function.update_apply]
  refine ⟨h.settled.clean, fun c hc => ?_, fun c hc => ?_, fun c hc u hu d hd => ?_⟩
  · rw [hmark] at hc
    split at hc
    · cases hc
    · exact h.settled.fresh c hc
  · rw [hmark] at hc
    split at hc
    · next heq =>
      subst heq
      exact ⟨h.imports_eq, h.found⟩
    · exact h.settled.done c hc
  · have hd' : s.mark d = .done := by
      rw [hmark] at hc
      split at hc
      · next heq => exact h.targets u (heq ▸ hu) d (heq ▸ hd)
      · exact h.settled.targets c hc u hu d hd
    rw [hmark, hd']
    exact ite_self _

/-- **What is left**: a resolution without errors leaves import lists that are what the uses
provide, looked up in these lists. -/
theorem solved_of_clean (hself : NoSelfReexport t) {s : ExportState} (h : resolveAll t = some s)
    (hclean : s.bag = []) {module : Nat} (hm : module < t.modules.length) :
    Solved t s.imports module := by
  have hok (bag bag' : DiagBag) (hp : bag <+: bag') (h : bag' = []) : bag = [] :=
    List.prefix_nil.1 (h ▸ hp)
  have hstart : Settled t .start := ⟨rfl, fun _ _ => rfl, nofun, nofun⟩
  have hrule := resolveModules_rule hok
    (resolveExports_rule hok (fun bag h => h ▸ rfl)
      (fun s module place h => h.transfer h.clean (fun _ => Iff.rfl) (fun _ => id) fun _ _ => rfl)
      (fun module s h hm => Partway.start h hm) (fun module p s h => ⟨h.settled, h.active⟩)
      (fun module p u l s v hp h hv hext ht hc => h.turn hself hp hv hext ht hc)
      (fun module s h => h.finish))
    (List.range t.modules.length) h hclean hstart
  exact hrule.1.done module (hrule.2.1 module (List.mem_range.2 hm))

/-! ## What is enough for a resolution without errors -/

/-- Import lists that a resolution can arrive at without a report. -/
structure Resolvable (t : Tree) (imports : Nat → List Import) (module : Nat) : Prop
    extends Solved t imports module where
  distinct : Distinct (imports module)
  noLocal : ∀ imp ∈ imports module, t.lookupLocal module imp.name imp.ns = false

/-- Between the calls of a walk that arrives at `imports`. -/
structure Follows (imports : Nat → List Import) (s : ExportState) : Prop where
  clean : s.bag = []
  fresh : ∀ c, s.mark c = .fresh → s.imports c = []
  done : ∀ c, s.mark c = .done → s.imports c = imports c

/-- While a module is in progress and the uses `p` are settled. -/
structure FollowsPartway (t : Tree) (imports : Nat → List Import) (module : Nat)
    (p : List (UseItem × Nat)) (s : ExportState) : Prop where
  follows : Follows imports s
  active : s.mark module = .active
  imports_eq : s.imports module = p.flatMap fun u => provided t imports module u.1

theorem FollowsPartway.start {module : Nat} {s : ExportState} (h : Follows imports s)
    (hm : s.mark module = .fresh) :
    FollowsPartway t imports module [] (s.setMark module .active) := by
  have hmark (c : Nat) (mark : Mark) (hne : mark ≠ .active)
      (hc : (s.setMark module .active).mark c = mark) : s.mark c = mark := by
    by_cases heq : c = module
    · subst heq
      simp [ExportState.setMark] at hc
      exact absurd hc.symm hne
    · simpa [ExportState.setMark, heq] using hc
  refine ⟨⟨h.clean, fun c hc => ?_, fun c hc => ?_⟩, by simp [ExportState.setMark], ?_⟩
  · exact h.fresh c (hmark c _ (by decide) hc)
  · exact h.done c (hmark c _ (by decide) hc)
  · exact h.fresh module hm

theorem FollowsPartway.turn (hself : NoSelfReexport t) {module : Nat}
    (hgood : Resolvable t imports module) {p l : List (UseItem × Nat)} {u : UseItem × Nat}
    {s v : ExportState} (hp : t.uses module = p ++ u :: l)
    (h : FollowsPartway t imports module p s) (hv : Follows imports v)
    (hext : Extends (fun _ => False) s v)
    (htarget : ∀ c, t.useTarget module u.1 = some c → v.mark c = .done) :
    FollowsPartway t imports module (p ++ [u]) (settleUse t module u.1 v) := by
  have hu : u ∈ t.uses module := hp ▸ List.mem_append_right _ (List.mem_cons_self ..)
  have hactive : v.mark module = .active := hext.active module h.active
  have himports : v.imports module = p.flatMap fun u => provided t imports module u.1 :=
    (hext.imports module (by rw [h.active]; decide) id).trans h.imports_eq
  have hall : imports module = (v.imports module ++ provided t imports module u.1) ++
      l.flatMap fun u => provided t imports module u.1 := by
    rw [hgood.imports_eq, hp, himports, List.flatMap_append, List.flatMap_cons, List.append_assoc]
  -- a lookup in the module's own list is one of a private use: what comes later is no re-export
  have hsame : provided t v.imports module u.1 = provided t imports module u.1 := by
    refine provided_congr fun c hc hl ns => ?_
    by_cases hm : c = module
    · subst hm
      refine findReexport_congr ?_ _ ns
      have hpriv := hself.isPub hu hc hl
      have hrest : ∀ x ∈ u :: l, x.1.isPub = false := by
        intro x hx
        rcases List.mem_cons.1 hx with rfl | hx
        · exact hpriv
        · exact later_private (p := p ++ [u]) (by simpa using hp) (by simp) hx hpriv
      rw [hgood.imports_eq, hp, List.flatMap_append, List.filter_append, filter_provided hrest,
        List.append_nil, himports]
    · rw [hv.done c (htarget c (Tree.useTarget_eq_some.2 ⟨hc, hl, hm⟩))]
  have hfound := hgood.found u hu
  obtain ⟨c, hc⟩ : ∃ c, t.useModule module u.1 = .ok c := by
    cases hc : t.useModule module u.1 with
    | error message => exact absurd (by simp only [provided, hc]) hfound
    | ok c => exact ⟨c, rfl⟩
  have hdistinct : Distinct (v.imports module ++ provided t imports module u.1) := by
    have hd := hgood.distinct
    rw [Distinct, hall] at hd
    exact (List.pairwise_append.1 hd).1
  have hlocal : ∀ imp ∈ provided t imports module u.1,
      t.lookupLocal module imp.name imp.ns = false := by
    intro imp himp
    refine hgood.noLocal imp ?_
    rw [hall]
    exact List.mem_append_left _ (List.mem_append_right _ himp)
  have hsettle : settleUse t module u.1 v =
      v.append module (provided t imports module u.1) := by
    rw [settleUse_eq hc, hsame, if_neg hfound,
      addAll_of_fits (fun imp himp => (mem_provided himp).2) hlocal hdistinct]
  have hother (c : Nat) (hc : c ≠ module) :
      (v.append module (provided t imports module u.1)).imports c = v.imports c := by
    simp [ExportState.append, hc]
  rw [hsettle]
  refine ⟨⟨hv.clean, fun c hc => ?_, fun c hc => ?_⟩, hactive, ?_⟩
  · have hne : c ≠ module := by
      rintro rfl
      cases hc.symm.trans hactive
    exact (hother c hne).trans (hv.fresh c hc)
  · have hne : c ≠ module := by
      rintro rfl
      cases hc.symm.trans hactive
    exact (hother c hne).trans (hv.done c hc)
  · rw [append_imports, himports, List.flatMap_append, List.flatMap_singleton]

theorem FollowsPartway.finish {module : Nat} (hgood : Resolvable t imports module)
    {s : ExportState} (h : FollowsPartway t imports module (t.uses module) s) :
    Follows imports (s.setMark module .done) := by
  refine ⟨h.follows.clean, fun c hc => ?_, fun c hc => ?_⟩
  · by_cases heq : c = module
    · simp [ExportState.setMark, heq] at hc
    · exact h.follows.fresh c (by simpa [ExportState.setMark, heq] using hc)
  · by_cases heq : c = module
    · subst heq
      exact h.imports_eq.trans hgood.imports_eq.symm
    · exact h.follows.done c (by simpa [ExportState.setMark, heq] using hc)

/-- **What is enough**: without a cycle of modules, the resolution arrives at resolvable import
lists without a report. -/
theorem clean_of_resolvable (hself : NoSelfReexport t) (hcycle : ¬ ModuleCycle t)
    (hgood : ∀ module, Resolvable t imports module) : ∃ s, resolveAll t = some s ∧ s.bag = [] ∧
      ∀ module < t.modules.length, s.imports module = imports module := by
  obtain ⟨s, hs⟩ := resolveAll_total t
  refine ⟨s, hs, ?_⟩
  let ok (bag : DiagBag) : Prop := cycleReported bag = false
  have hok (bag bag' : DiagBag) (hp : bag <+: bag') (h : ok bag') : ok bag := by
    obtain ⟨new, rfl⟩ := hp
    simp only [ok, cycleReported_append, Bool.or_eq_false_iff] at h
    exact h.1
  have hclean : ok s.bag := by
    cases h : cycleReported s.bag with
    | false => exact h
    | true => exact absurd ((cycleReported_iff hs).1 h) hcycle
  have hstart : Follows imports .start := ⟨rfl, fun _ _ => rfl, nofun⟩
  have hrule := resolveModules_rule hok
    (resolveExports_rule hok (fun _ => id) (fun s module place h => ⟨h.clean, h.fresh, h.done⟩)
      (fun module s h hm => FollowsPartway.start (t := t) h hm)
      (fun module p s h => ⟨h.follows, h.active⟩)
      (fun module p u l s v hp h hv hext ht _ => h.turn hself (hgood module) hp hv hext ht)
      (fun module s h => h.finish (hgood module)))
    (List.range t.modules.length) hs hclean hstart
  exact ⟨hrule.1.clean, fun module hm => hrule.1.done module (hrule.2.1 module (List.mem_range.2 hm))⟩

/-! ## Another order -/

def isUseItem : Item → Bool
  | .use _ => true
  | _ => false

/-- An item without the items inside it: those of an inline module are the items of its own node,
and nothing after the tree is built reads them here. -/
def outline : Item → Item
  | .mod span isPub name _ isInline => .mod span isPub name [] isInline
  | item => item

/-- The same items with the `use` items in another order. -/
structure SameItems (items items' : List Item) : Prop where
  uses : (items'.filter isUseItem).Perm (items.filter isUseItem)
  others : (items'.filter fun item => !isUseItem item).map outline =
    (items.filter fun item => !isUseItem item).map outline

/-- The same tree with the `use` items of its modules in another order. -/
structure Reordered (t t' : Tree) : Prop where
  packageName : t'.packageName = t.packageName
  length : t'.modules.length = t.modules.length
  path : ∀ module, (t'.node module).path = (t.node module).path
  file : ∀ module, (t'.node module).file = (t.node module).file
  parent : ∀ module, (t'.node module).parent = (t.node module).parent
  children : ∀ module, (t'.node module).children = (t.node module).children
  items : ∀ module, SameItems (t.node module).items (t'.node module).items

/-- What is read of the items that are no uses is the same. -/
theorem SameItems.filterMap {β : Type} {items items' : List Item} (h : SameItems items items')
    {f : Item → Option β} (huse : ∀ use, f (.use use) = none)
    (houtline : ∀ item, f (outline item) = f item) : items'.filterMap f = items.filterMap f := by
  have hothers (l : List Item) :
      l.filterMap f = ((l.filter fun item => !isUseItem item).map outline).filterMap f := by
    rw [List.filterMap_map, show f ∘ outline = f from funext houtline, List.filterMap_filter]
    refine List.filterMap_congr fun item _ => ?_
    cases item with
    | use use => simp [isUseItem, huse]
    | _ => rfl
  rw [hothers, h.others, ← hothers]

def asUse : Item → Option UseItem
  | .use use => some use
  | _ => none

/-- The `use` items without their places. -/
def usesOf (items : List Item) : List UseItem := items.filterMap asUse

theorem SameItems.usesOf {items items' : List Item} (h : SameItems items items') :
    (usesOf items').Perm (usesOf items) := by
  have huses (l : List Item) : Resolve.usesOf l = Resolve.usesOf (l.filter isUseItem) := by
    rw [Resolve.usesOf, Resolve.usesOf, List.filterMap_filter]
    refine List.filterMap_congr fun item _ => ?_
    cases item <;> rfl
  rw [huses, huses items]
  exact h.uses.filterMap _

theorem Tree.uses_perm (t : Tree) (module : Nat) :
    ((t.uses module).map Prod.fst).Perm (usesOf (t.node module).items) := by
  have hperm : (t.uses module).Perm (t.useItems module) := List.filter_append_perm _ _
  refine (hperm.map Prod.fst).trans (List.Perm.of_eq ?_)
  have hplaces : ∀ (l : List Item) (n : Nat),
      ((l.zipIdx n).filterMap useEntry).map Prod.fst = usesOf l := by
    intro l
    induction l with
    | nil => intro n; rfl
    | cons item l ih =>
      intro n
      cases item with
      | use use => exact congrArg (use :: ·) (ih (n + 1))
      | _ => exact ih (n + 1)
  exact hplaces _ 0

section
variable {t' : Tree} (h : Reordered t t')
include h

theorem Reordered.moduleName : t'.moduleName = t.moduleName := by
  funext module
  rw [Tree.moduleName, Tree.moduleName, h.path]

theorem Reordered.findChildModule : t'.findChildModule = t.findChildModule := by
  funext module name
  rw [Tree.findChildModule, Tree.findChildModule, h.children, h.moduleName]

theorem Reordered.rootIndex : t'.rootIndex = t.rootIndex := by
  have hpaths : t'.modules.map ModuleNode.path = t.modules.map ModuleNode.path := by
    refine List.ext_getElem (by simp [h.length]) fun i hi hi' => ?_
    rw [List.length_map] at hi hi'
    have hp := h.path i
    simpa [Tree.node, List.getD_eq_getElem?_getD, hi, hi'] using hp
  have hroot (t : Tree) : t.rootIndex =
      ((t.modules.map ModuleNode.path).findIdx? fun path => path = "").getD 0 := by
    rw [Tree.rootIndex, List.findIdx?_map]
    rfl
  rw [hroot, hroot, hpaths]

theorem Reordered.headModule : t'.headModule = t.headModule := by
  funext module head
  simp only [Tree.headModule, h.packageName, h.rootIndex, h.parent, h.findChildModule]

theorem Reordered.walkModules : t'.walkModules = t.walkModules := by
  funext current segments
  induction segments generalizing current with
  | nil => rfl
  | cons segment rest ih => simp only [Tree.walkModules, h.findChildModule, ih]

theorem Reordered.useModule : t'.useModule = t.useModule := by
  funext module use
  simp only [Tree.useModule, h.headModule, h.walkModules]

theorem Reordered.lookupLocal : t'.lookupLocal = t.lookupLocal := by
  have hlocals (module : Nat) (ns : Namespace) : t'.locals module ns = t.locals module ns := by
    cases ns with
    | type =>
      refine (h.items module).filterMap (fun _ => rfl) fun item => ?_
      cases item <;> rfl
    | value =>
      refine (h.items module).filterMap (fun _ => rfl) fun item => ?_
      cases item <;> rfl
    | module =>
      simp only [Tree.locals, Tree.localModules, h.children, h.moduleName]
  funext module member ns
  rw [Tree.lookupLocal, Tree.lookupLocal, hlocals]

theorem Reordered.isLocal : t'.isLocal = t.isLocal := by
  funext module member
  rw [Tree.isLocal, Tree.isLocal, h.lookupLocal]

theorem Reordered.provided_eq : provided t' = provided t := by
  funext imports module use
  simp only [provided, h.useModule, h.isLocal, h.lookupLocal]

theorem Reordered.uses (module : Nat) :
    ((t'.uses module).map Prod.fst).Perm ((t.uses module).map Prod.fst) :=
  (t'.uses_perm module).trans ((h.items module).usesOf.trans (t.uses_perm module).symm)

/-- A `use` of one tree is one of the other. -/
theorem Reordered.exists_use {module : Nat} {u : UseItem × Nat} (hu : u ∈ t'.uses module) :
    ∃ v ∈ t.uses module, v.1 = u.1 :=
  List.mem_map.1 ((h.uses module).mem_iff.1 (List.mem_map_of_mem hu))

theorem Reordered.noSelfReexport (hself : NoSelfReexport t) : NoSelfReexport t' := by
  rintro module u hu ⟨hpub, hmod, hlocal⟩
  obtain ⟨v, hv, heq⟩ := h.exists_use hu
  refine hself module v hv ⟨?_, ?_, ?_⟩
  · rw [heq, hpub]
  · rw [heq, ← h.useModule, hmod]
  · rw [heq, ← h.isLocal, hlocal]

theorem Reordered.moduleCycle (hcycle : ModuleCycle t') : ModuleCycle t := by
  obtain ⟨module, hc⟩ := hcycle
  refine ⟨module, hc.lift id ?_⟩
  rintro a b ⟨use, place, hi, hmod, hlocal, hne⟩
  obtain ⟨v, hv, heq⟩ := h.exists_use ((Tree.mem_uses a (use, place)).2 hi)
  refine ⟨v.1, v.2, (Tree.mem_uses a v).1 hv, ?_, ?_, hne⟩
  · rw [heq, ← h.useModule]
    exact hmod
  · rw [heq, ← h.isLocal]
    exact hlocal

/-- Import lists that a resolution can arrive at, in the other order. -/
theorem Reordered.resolvable
    (hgood : ∀ module < t.modules.length, Resolvable t imports module) :
    ∃ imports', (∀ module, Resolvable t' imports' module) ∧
      ∀ module < t.modules.length, (imports' module).Perm (imports module) := by
  -- what the uses of this order provide, looked up in the lists of the other one
  let imports' (module : Nat) : List Import :=
    (t'.uses module).flatMap fun u => provided t imports module u.1
  have hflat (t : Tree) (f : UseItem → List Import) (module : Nat) :
      ((t.uses module).flatMap fun u => f u.1) = ((t.uses module).map Prod.fst).flatMap f := by
    rw [List.flatMap_map]
  have hperm (module : Nat) (hm : module < t.modules.length) :
      (imports' module).Perm (imports module) := by
    rw [(hgood module hm).imports_eq]
    simp only [imports', hflat]
    exact (h.uses module).flatMap_right _
  have hdistinct (module : Nat) (hm : module < t.modules.length) : Distinct (imports' module) := by
    refine ((hperm module hm).pairwise_iff fun hab hba => hab ?_).2 (hgood module hm).distinct
    exact ⟨hba.1.symm, hba.2.symm⟩
  have hnone (module : Nat) (hm : ¬ module < t.modules.length) : t'.uses module = [] := by
    have hitems := (t'.node_of_le (h.length ▸ Nat.le_of_not_lt hm)).1
    simp [Tree.uses, Tree.useItems, hitems]
  -- a list without two imports of one name finds the same one in every order
  have hfind (module : Nat) (hm : module < t.modules.length) (member : String) (ns : Namespace) :
      findReexport (imports' module) member ns = findReexport (imports module) member ns :=
    findReexport_perm (hperm module hm) (hdistinct module hm) member ns
  have hprovided {module : Nat} (hm : module < t.modules.length) (use : UseItem) :
      provided t' imports' module use = provided t imports module use := by
    rw [h.provided_eq]
    exact provided_congr fun c hc _ ns => hfind c (Tree.useModule_lt hm hc) _ ns
  refine ⟨imports', fun module => ?_, hperm⟩
  by_cases hm : module < t.modules.length
  · have hp := hperm module hm
    refine ⟨⟨?_, fun u hu => ?_⟩, hdistinct module hm, fun imp himp => ?_⟩
    · simp only [hprovided hm]
      rfl
    · obtain ⟨v, hv, heq⟩ := h.exists_use hu
      rw [hprovided hm, ← heq]
      exact (hgood module hm).found v hv
    · rw [h.lookupLocal]
      exact (hgood module hm).noLocal imp (hp.mem_iff.1 himp)
  · have hempty : imports' module = [] := by simp [imports', hnone module hm]
    refine ⟨⟨?_, ?_⟩, ?_, ?_⟩
    · rw [hempty, hnone module hm]
      rfl
    · rw [hnone module hm]
      intro u hu
      cases hu
    · rw [hempty]
      exact .nil
    · rw [hempty]
      intro imp himp
      cases himp

end

/-! ## A re-export of the module's own, resolved first -/

/-- The tree with other items in one module. -/
def Tree.withItems (t : Tree) (module : Nat) (items : List Item) : Tree where
  packageName := t.packageName
  modules := t.modules.set module { t.node module with items }
  nonempty := by simpa using t.nonempty
  children_lt := by
    intro node hnode child hchild
    rw [List.length_set]
    rcases List.mem_or_eq_of_mem_set hnode with hnode | rfl
    · exact t.children_lt node hnode child hchild
    · by_cases hm : module < t.modules.length
      · exact t.children_lt _ (Tree.mem_modules_of_lt hm) child hchild
      · simp [(t.node_of_le (Nat.le_of_not_lt hm)).2] at hchild
  parent_lt := by
    intro node hnode parent hparent
    rw [List.length_set]
    rcases List.mem_or_eq_of_mem_set hnode with hnode | rfl
    · exact t.parent_lt node hnode parent hparent
    · by_cases hm : module < t.modules.length
      · exact t.parent_lt _ (Tree.mem_modules_of_lt hm) parent hparent
      · rw [List.set_eq_of_length_le (Nat.le_of_not_lt hm)] at hnode
        exact t.parent_lt _ hnode parent hparent

theorem Tree.node_withItems {module : Nat} (hm : module < t.modules.length) (items : List Item)
    (k : Nat) : (t.withItems module items).node k =
      if k = module then { t.node module with items } else t.node k := by
  by_cases hk : k = module
  · subst hk
    simp [Tree.node, Tree.withItems, List.getD_eq_getElem?_getD, hm]
  · simp [Tree.node, Tree.withItems, List.getD_eq_getElem?_getD, List.getElem?_set_ne (Ne.symm hk),
      hk]

theorem sameItems_first {items : List Item} {use : UseItem} {place : Nat}
    (h : items[place]? = some (.use use)) :
    SameItems items (.use use :: items.eraseIdx place) := by
  obtain ⟨hlt, hget⟩ := List.getElem?_eq_some_iff.1 h
  constructor
  · have hperm := (List.getElem_cons_eraseIdx_perm hlt).filter isUseItem
    rwa [hget] at hperm
  · have hsplit : items = items.take place ++ .use use :: items.drop (place + 1) := by
      rw [← hget, ← List.drop_eq_getElem_cons hlt, List.take_append_drop]
    rw [List.eraseIdx_eq_take_drop_succ]
    conv_rhs => rw [hsplit]
    simp [isUseItem]

theorem SameItems.refl (items : List Item) : SameItems items items := ⟨.refl _, rfl⟩

theorem reordered_withItems {module : Nat} (hm : module < t.modules.length) {items : List Item}
    (h : SameItems (t.node module).items items) : Reordered t (t.withItems module items) := by
  refine ⟨rfl, List.length_set, ?_, ?_, ?_, ?_, ?_⟩ <;> intro k <;> rw [Tree.node_withItems hm] <;>
    split
  all_goals first
    | rfl
    | next hk => subst hk; first | rfl | exact h
    | exact SameItems.refl _

theorem uses_cons (t : Tree) {module : Nat} {use : UseItem} {rest : List Item}
    (h : (t.node module).items = .use use :: rest) (hpub : use.isPub = true) :
    ∃ l, t.uses module = (use, 0) :: l := by
  simp [Tree.uses, Tree.useItems, h, useEntry, hpub]

/-- A `use` of the module's own that is resolved first finds no re-export. -/
theorem settleUse_first {module : Nat} {use : UseItem} (hu : SelfReexport t module use)
    {s : ExportState} (hs : s.imports module = []) : (settleUse t module use s).bag ≠ [] := by
  obtain ⟨_, hmod, hlocal⟩ := hu
  have hnone : provided t s.imports module use = [] := by
    simp only [provided, hmod, hlocal, hs, findReexport, List.find?_nil, Option.map_none,
      List.filterMap_none, if_false, Bool.false_eq_true]
  rw [settleUse_eq hmod, if_pos hnone]
  exact report_bag_ne_nil _ _ _ _

theorem resolveExports_reported {module : Nat} {u : UseItem × Nat} {l : List (UseItem × Nat)}
    (hl : t.uses module = u :: l) (hu : SelfReexport t module u.1) {fuel : Nat} :
    ∀ {k : Nat} {s s' : ExportState}, resolveExports t fuel k s = some s' →
      s.bag ≠ [] ∨ s.mark module = .fresh ∧ s.imports module = [] →
        s'.bag ≠ [] ∨ s'.mark module = .fresh ∧ s'.imports module = [] := by
  have hgrow {s s' : ExportState} (hp : s.bag <+: s'.bag) (hs : s.bag ≠ []) : s'.bag ≠ [] := by
    intro h
    exact hs (List.prefix_nil.1 (h ▸ hp))
  induction fuel with
  | zero => intro k s s' h; simp [resolveExports] at h
  | succ fuel ih =>
    intro k s s' h hs
    rcases hs with hs | ⟨hm, himp⟩
    · exact .inl (hgrow (bag_resolveExports h) hs)
    cases hk : s.mark k with
    | done =>
      simp only [resolveExports, hk, Option.some.injEq] at h
      exact h ▸ .inr ⟨hm, himp⟩
    | active =>
      simp only [resolveExports, hk, Option.some.injEq] at h
      exact h ▸ .inl (report_bag_ne_nil _ _ _ _)
    | fresh =>
      obtain ⟨v, hv, rfl⟩ := resolveExports_fresh h hk
      by_cases hkm : k = module
      · -- the first turn reports
        subst hkm
        rw [hl, List.foldlM_cons, Option.bind_eq_bind, Option.bind_eq_some_iff] at hv
        obtain ⟨w, hw, hrest⟩ := hv
        obtain ⟨x, rfl, ⟨_, rfl⟩ | ⟨target, ht, _⟩⟩ := turn_cases hw
        · have hfirst : (settleUse t k u.1 ((s.setMark k .active).log k u.2)).bag ≠ [] :=
            settleUse_first hu himp
          have hbag : _ <+: v.bag := bag_turns hrest
          exact .inl (hgrow hbag hfirst)
        · obtain ⟨hc, _, hne⟩ := Tree.useTarget_eq_some.1 ht
          cases hu.2.1.symm.trans hc
          exact absurd rfl hne
      · have hset (s : ExportState) (mark : Mark) : (s.setMark k mark).mark module =
            s.mark module := by
          simp [ExportState.setMark, Ne.symm hkm]
        have hfold : v.bag ≠ [] ∨ v.mark module = .fresh ∧ v.imports module = [] := by
          refine Lib.Search.foldlM_invariant
            (P := fun s => s.bag ≠ [] ∨ s.mark module = .fresh ∧ s.imports module = []) hv
            (.inr ⟨(hset s .active).trans hm, himp⟩) fun x _ s w hs hturn => ?_
          obtain ⟨y, rfl, hy⟩ := turn_cases hturn
          have hy' : y.bag ≠ [] ∨ y.mark module = .fresh ∧ y.imports module = [] := by
            rcases hy with ⟨_, rfl⟩ | ⟨target, _, hy⟩
            · exact hs
            · exact ih hy hs
          have hsettle := settles_settleUse (t := t) k x.1 y
          rcases hy' with hy' | ⟨hym, hyi⟩
          · exact .inl (hgrow (bag_settleUse _ _ _) hy')
          · exact .inr ⟨by rw [hsettle.mark, hym],
              (hsettle.imports module (Ne.symm hkm)).trans hyi⟩
        rcases hfold with hv | ⟨hvm, hvi⟩
        · exact .inl hv
        · exact .inr ⟨(hset v .done).trans hvm, hvi⟩

/-- A tree whose module resolves a re-export of its own first is reported. -/
theorem reported_of_first {module : Nat} (hm : module < t.modules.length) {u : UseItem × Nat}
    {l : List (UseItem × Nat)} (hl : t.uses module = u :: l) (hu : SelfReexport t module u.1)
    {s : ExportState} (h : resolveAll t = some s) : s.bag ≠ [] := by
  have hend : s.bag ≠ [] ∨ s.mark module = .fresh ∧ s.imports module = [] :=
    Lib.Search.foldlM_invariant
      (P := fun s => s.bag ≠ [] ∨ s.mark module = .fresh ∧ s.imports module = []) h
      (.inr ⟨rfl, rfl⟩) fun _ _ _ _ hs hcall => resolveExports_reported hl hu hcall hs
  rcases hend with hbag | ⟨hfresh, _⟩
  · exact hbag
  · exact absurd hfresh (resolveAll_not_fresh h hm)

/-- **The order of uses.** All that resolution reports is an error. Where it reports nothing, it reports nothing in any order of the
`use` items and leaves the same imports, if and only if no public `use` leads back to its own module
for a member that is not declared there. -/
theorem useOrder_iff {s : ExportState} (h : resolveAll t = some s) (hclean : s.bag = []) :
    (∀ t', Reordered t t' → ∃ s', resolveAll t' = some s' ∧ s'.bag = [] ∧
      ∀ module < t.modules.length, (s'.imports module).Perm (s.imports module)) ↔
    NoSelfReexport t := by
  constructor
  · rintro hall module ⟨use, place⟩ hu hself
    have hitem := (Tree.mem_uses module (use, place)).1 hu
    have hm : module < t.modules.length := by
      by_contra hm
      simp [(t.node_of_le (Nat.le_of_not_lt hm)).1] at hitem
    have hr := reordered_withItems hm (sameItems_first hitem)
    obtain ⟨s', hs', hclean', _⟩ := hall _ hr
    have hfirst : ((t.withItems module (.use use :: (t.node module).items.eraseIdx place)).node
        module).items = .use use :: (t.node module).items.eraseIdx place := by
      rw [Tree.node_withItems hm, if_pos rfl]
    obtain ⟨l, hl⟩ := uses_cons _ hfirst hself.1
    refine reported_of_first (by simpa using hr.length ▸ hm) hl ⟨hself.1, ?_, ?_⟩ hs' hclean'
    · rw [hr.useModule]
      exact hself.2.1
    · rw [hr.isLocal]
      exact hself.2.2
  · intro hself t' hr
    obtain ⟨s₁, hs₁, _, hfinal⟩ := resolveAll_final t
    cases h.symm.trans hs₁
    have hgood (module : Nat) (hm : module < t.modules.length) : Resolvable t s.imports module :=
      ⟨solved_of_clean hself h hclean hm, hfinal.unique module, hfinal.noLocal module⟩
    have hcycle : ¬ ModuleCycle t := by
      intro hc
      have hrep := (cycleReported_iff h).2 hc
      rw [hclean] at hrep
      cases hrep
    obtain ⟨imports', hgood', hperm⟩ := hr.resolvable hgood
    obtain ⟨s', hs', hclean', heq⟩ := clean_of_resolvable (hr.noSelfReexport hself)
      (mt hr.moduleCycle hcycle) hgood'
    exact ⟨s', hs', hclean', fun module hm => by
      rw [heq module (hr.length ▸ hm)]
      exact hperm module hm⟩

/-- `mod a { … }`, with the given uses, `mod b { pub struct Foo {} }`. -/
def besideFoo (uses : List Item) : Tree where
  packageName := "demo"
  modules :=
    let b := [unitStruct "Foo"]
    let decl (name : String) (items : List Item) : Item :=
      .mod default false ⟨name, default⟩ items true
    [⟨"", some 0, [decl "a" uses, decl "b" b], none, [1, 2]⟩, ⟨"a", none, uses, some 0, []⟩,
      ⟨"b", none, b, some 0, []⟩]
  nonempty := by simp
  children_lt := by simp
  parent_lt := by simp

/-- `use self::Foo as Bar;`, public or not. -/
def ownFoo (isPub : Bool) : Item :=
  .use ⟨default, isPub, ⟨[⟨"self", default⟩, ⟨"Foo", default⟩], default⟩, some ⟨"Bar", default⟩⟩

/-- `pub use super::b::Foo;`. -/
def foosReexport : Item := useItem true ["super", "b", "Foo"]

/-- With `use self::Foo as Bar; pub use super::b::Foo;` every order will do. -/
theorem privateOwnFoo_ordered : ∃ s, resolveAll (besideFoo [ownFoo false, foosReexport]) = some s ∧
    ∀ t', Reordered (besideFoo [ownFoo false, foosReexport]) t' →
      ∃ s', resolveAll t' = some s' ∧ s'.bag = [] ∧
        ∀ module < 3, (s'.imports module).Perm (s.imports module) := by
  have hrun : (resolveAll (besideFoo [ownFoo false, foosReexport])).map (·.bag.isEmpty) =
      some true := by decide
  obtain ⟨s, hs, hclean⟩ := Option.map_eq_some_iff.1 hrun
  refine ⟨s, hs, (useOrder_iff hs (List.isEmpty_iff.1 hclean)).2 ?_⟩
  have hall : ∀ m < 3, ∀ u ∈ (besideFoo [ownFoo false, foosReexport]).uses m, u.1.isPub = true →
      ((besideFoo [ownFoo false, foosReexport]).useModule m u.1).toOption ≠ some m := by decide
  rintro m u hu ⟨hpub, hmod, _⟩
  have hm : m < 3 := by
    by_contra hm
    have hitem := (Tree.mem_uses m u).1 hu
    rw [(Tree.node_of_le _ (Nat.le_of_not_lt hm)).1] at hitem
    cases hitem
  exact hall m hm u hu hpub (by rw [hmod]; rfl)

/-- `pub use super::b::Foo; pub use self::Foo as Bar;` is resolved, and reported the other way
round. -/
theorem publicOwnFoo_reported : ∃ t', Reordered (besideFoo [foosReexport, ownFoo true]) t' ∧
    (∃ s, resolveAll (besideFoo [foosReexport, ownFoo true]) = some s ∧ s.bag = []) ∧
    ∀ s', resolveAll t' = some s' → s'.bag ≠ [] := by
  have hitem : ((besideFoo [foosReexport, ownFoo true]).node 1).items[1]? = some (ownFoo true) := rfl
  have hswap : SameItems ((besideFoo [foosReexport, ownFoo true]).node 1).items
      [ownFoo true, foosReexport] := sameItems_first hitem
  refine ⟨_, reordered_withItems (by decide) hswap, ?_, fun s' hs' hclean => ?_⟩
  · have hrun : (resolveAll (besideFoo [foosReexport, ownFoo true])).map (·.bag.isEmpty) =
        some true := by decide
    obtain ⟨s, hs, hclean⟩ := Option.map_eq_some_iff.1 hrun
    exact ⟨s, hs, List.isEmpty_iff.1 hclean⟩
  · have hrun : (resolveAll ((besideFoo [foosReexport, ownFoo true]).withItems 1
        [ownFoo true, foosReexport])).map (·.bag.isEmpty) = some false := by decide
    rw [hs', Option.map_some, hclean] at hrun
    cases hrun

end Alcy.Analyzer.Resolve
