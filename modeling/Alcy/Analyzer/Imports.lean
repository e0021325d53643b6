import Alcy.Analyzer.Resolve

/-! # Recorded imports are final

The module walk of `resolve_exports` is the depth-first search of `Lib.Search`:
a `use` either settles on the spot or descends into one module first. From that
come its totality and the marks; what a settled `use` records keeps the import
lists valid, however incomplete the lists it reads are. -/
namespace Alcy.Analyzer.Resolve
open Alcy.Ast Alcy.Diag
open Alcy.Lib.Search (Mark)
open Tree (namespaces useMember useName)

variable {t : Tree}

/-! ## Indexes stay in the tree -/

theorem Tree.mem_modules_of_lt {module : Nat} (h : module < t.modules.length) :
    t.node module ∈ t.modules := by
  simp [Tree.node, List.getD_eq_getElem?_getD, List.getElem?_eq_getElem h]

/-- Outside the tree there is nothing. -/
theorem Tree.node_of_le (t : Tree) {module : Nat} (h : t.modules.length ≤ module) :
    (t.node module).items = [] ∧ (t.node module).children = [] := by
  rw [show t.node module = default by
    simp [Tree.node, List.getD_eq_getElem?_getD, List.getElem?_eq_none h]]
  exact ⟨rfl, rfl⟩

theorem Tree.findChildModule_lt {module child : Nat} {name : String}
    (h : t.findChildModule module name = some child) : child < t.modules.length := by
  have hmem := List.mem_of_find?_eq_some h
  rcases Nat.lt_or_ge module t.modules.length with hm | hm
  · exact t.children_lt _ (Tree.mem_modules_of_lt hm) child hmem
  · rw [(t.node_of_le hm).2] at hmem
    cases hmem

theorem Tree.rootIndex_lt : t.rootIndex < t.modules.length := by
  unfold Tree.rootIndex
  cases h : t.modules.findIdx? fun node => node.path = "" with
  | none => exact t.nonempty
  | some i => exact (List.findIdx?_eq_some_iff_getElem.mp h).1

theorem Tree.headModule_lt {module current : Nat} {head : String}
    (hm : module < t.modules.length) (h : t.headModule module head = .ok current) :
    current < t.modules.length := by
  unfold Tree.headModule at h
  split at h
  · cases h; exact t.rootIndex_lt
  split at h
  · cases h; exact hm
  split at h
  · split at h
    · cases h
    · next hp => cases h; exact t.parent_lt _ (Tree.mem_modules_of_lt hm) _ hp
  · split at h
    · cases h
    · next hc => cases h; exact Tree.findChildModule_lt hc

theorem Tree.walkModules_lt {segments : List String} :
    ∀ {current target : Nat}, current < t.modules.length →
      t.walkModules current segments = .ok target → target < t.modules.length := by
  induction segments with
  | nil => intro current target hc h; cases h; exact hc
  | cons segment rest ih =>
    intro current target hc h
    unfold Tree.walkModules at h
    split at h
    · cases h
    · next hs => exact ih (Tree.findChildModule_lt hs) h

theorem Tree.useModule_lt {module current : Nat} {use : UseItem} (hm : module < t.modules.length)
    (h : t.useModule module use = .ok current) : current < t.modules.length := by
  unfold Tree.useModule at h
  split at h
  · cases h
  · cases h
  · next head second rest _ =>
    cases hh : t.headModule module head with
    | error message => simp [hh, bind, Except.bind] at h
    | ok first =>
      simp only [hh, bind, Except.bind] at h
      exact Tree.walkModules_lt (Tree.headModule_lt hm hh) h

/-- Only modules of the tree have local names. -/
theorem Tree.lookupLocal_lt {module : Nat} {member : String} {ns : Namespace}
    (h : t.lookupLocal module member ns = true) : module < t.modules.length := by
  by_contra hm
  obtain ⟨hi, hc⟩ := t.node_of_le (Nat.le_of_not_lt hm)
  cases ns <;>
    simp [Tree.lookupLocal, Tree.locals, Tree.localTypes, Tree.localValues, Tree.localModules,
      hi, hc] at h

/-! ## One `use`: descend, then settle -/

/-- The module `resolve_use` descends into before it settles, if it descends. -/
def Tree.useTarget (t : Tree) (module : Nat) (use : UseItem) : Option Nat :=
  match t.useModule module use with
  | .error _ => none
  | .ok current =>
    if t.isLocal current (useMember use) then none
    else if current ≠ module then some current else none

/-- What is left of `resolve_use` after the descent. -/
def settleUse (t : Tree) (module : Nat) (use : UseItem) (s : ExportState) : ExportState :=
  match t.useModule module use with
  | .error message => s.report kAnalyzerUnresolvedImport use.span message
  | .ok current =>
    if t.isLocal current (useMember use) then importLocals t module use current namespaces s
    else
      let r := importReexports t module use current namespaces s false
      if r.2 then r.1
      else r.1.report kAnalyzerUnresolvedImport use.span
        ("unresolved import '" ++ useMember use ++ "'")

/-- The descent of a `use`, when there is one. -/
def descend (visit : Nat → ExportState → Option ExportState) (target : Option Nat)
    (s : ExportState) : Option ExportState :=
  match target with
  | none => some s
  | some module => visit module s

theorem resolveUse_eq (visit : Nat → ExportState → Option ExportState) (module : Nat)
    (use : UseItem) (s : ExportState) :
    resolveUse t visit module use s =
      (descend visit (t.useTarget module use) s).map (settleUse t module use) := by
  unfold resolveUse settleUse Tree.useTarget
  cases t.useModule module use with
  | error message => rfl
  | ok current =>
    by_cases hl : t.isLocal current (useMember use) = true
    · simp [hl, descend]
    · by_cases hc : current ≠ module
      · simp only [hl, hc, if_true, if_false, descend, Bool.false_eq_true, ne_eq,
          not_false_eq_true]
        cases visit current s with
        | none => rfl
        | some u => simp only [Option.bind_eq_bind, Option.bind_some, Option.map_some]; split <;> rfl
      · simp only [hl, hc, if_false, descend, Bool.false_eq_true, Option.bind_eq_bind,
          Option.bind_some, Option.map_some]
        split <;> rfl

/-- Recording that a `use` was entered. -/
def ExportState.log (s : ExportState) (module place : Nat) : ExportState :=
  { s with resolved := s.resolved ++ [(module, place)] }

/-- One turn of the loops in `resolve_exports`. -/
def turn (t : Tree) (visit : Nat → ExportState → Option ExportState) (module : Nat)
    (s : ExportState) (u : UseItem × Nat) : Option ExportState :=
  (descend visit (t.useTarget module u.1) (s.log module u.2)).map (settleUse t module u.1)

/-- A call on a fresh module is its turns between two marks. -/
theorem resolveExports_fresh_eq {fuel module : Nat} {s : ExportState}
    (hm : s.mark module = .fresh) :
    resolveExports t (fuel + 1) module s =
      ((t.uses module).foldlM (turn t (resolveExports t fuel) module)
        (s.setMark module .active)).map fun u => u.setMark module .done := by
  have hturn : turn t (resolveExports t fuel) module = fun s u =>
      (descend (resolveExports t fuel) (t.useTarget module u.1) (s.log module u.2)).map
        (settleUse t module u.1) := rfl
  simp only [resolveExports, hm, resolveUse_eq, hturn, ExportState.log, Option.bind_eq_bind,
    Option.map_eq_bind, Function.comp_def]

/-- Every completed call out of a fresh module, taken apart. -/
theorem resolveExports_fresh {fuel module : Nat} {s s' : ExportState}
    (h : resolveExports t (fuel + 1) module s = some s') (hm : s.mark module = .fresh) :
    ∃ u, (t.uses module).foldlM (turn t (resolveExports t fuel) module)
        (s.setMark module .active) = some u ∧ s' = u.setMark module .done := by
  rw [resolveExports_fresh_eq hm, Option.map_eq_some_iff] at h
  obtain ⟨u, hu, hs⟩ := h
  exact ⟨u, hu, hs.symm⟩

/-- A turn that completes went through its descent. -/
theorem turn_cases {visit : Nat → ExportState → Option ExportState} {module : Nat}
    {s s' : ExportState} {u : UseItem × Nat} (h : turn t visit module s u = some s') :
    ∃ v, s' = settleUse t module u.1 v ∧
      ((t.useTarget module u.1 = none ∧ v = s.log module u.2) ∨
        ∃ target, t.useTarget module u.1 = some target ∧
          visit target (s.log module u.2) = some v) := by
  simp only [turn, Option.map_eq_some_iff] at h
  obtain ⟨v, hv, hs⟩ := h
  refine ⟨v, hs.symm, ?_⟩
  cases ht : t.useTarget module u.1 with
  | none =>
    rw [ht] at hv
    exact .inl ⟨rfl, (Option.some.inj hv).symm⟩
  | some target =>
    rw [ht] at hv
    exact .inr ⟨target, rfl, hv⟩

/-- **Invariant rule.** What every elementary change of the state keeps, a whole
walk keeps. -/
theorem resolveExports_invariant {P : ExportState → Prop}
    (hmark : ∀ s module mark, P s → P (s.setMark module mark))
    (hreport : ∀ s code span message, P s → P (s.report code span message))
    (hlog : ∀ s module place, P s → P (s.log module place))
    (hsettle : ∀ s module use, P s → P (settleUse t module use s)) {fuel : Nat} :
    ∀ {module : Nat} {s s' : ExportState}, resolveExports t fuel module s = some s' →
      P s → P s' := by
  induction fuel with
  | zero => intro module s s' h; simp [resolveExports] at h
  | succ fuel ih =>
    intro module s s' h hp
    cases hm : s.mark module with
    | done =>
      simp only [resolveExports, hm, Option.some.injEq] at h
      exact h ▸ hp
    | active =>
      simp only [resolveExports, hm, Option.some.injEq] at h
      exact h ▸ hmark _ _ _ (hreport _ _ _ _ hp)
    | fresh =>
      obtain ⟨u, hu, rfl⟩ := resolveExports_fresh h hm
      refine hmark _ _ _ (Lib.Search.foldlM_invariant hu (hmark _ _ _ hp) ?_)
      intro a _ v v' hv hturn
      obtain ⟨w, rfl, ⟨_, rfl⟩ | ⟨target, _, hw⟩⟩ := turn_cases hturn
      · exact hsettle _ _ _ (hlog _ _ _ hv)
      · exact hsettle _ _ _ (ih hw (hlog _ _ _ hv))

/-! ## Settling touches one import list -/

/-- What `settleUse` leaves alone. -/
structure Settles (module : Nat) (s s' : ExportState) : Prop where
  mark : s'.mark = s.mark
  resolved : s'.resolved = s.resolved
  imports : ∀ other, other ≠ module → s'.imports other = s.imports other
  bag : ∃ new : DiagBag, s'.bag = s.bag ++ new ∧ ∀ d ∈ new, d.message ≠ cycleMessage

theorem Settles.refl (module : Nat) (s : ExportState) : Settles module s s :=
  ⟨rfl, rfl, fun _ _ => rfl, [], by simp⟩

theorem Settles.trans {module : Nat} {s u v : ExportState} (h : Settles module s u)
    (k : Settles module u v) : Settles module s v := by
  obtain ⟨a, ha, hna⟩ := h.bag
  obtain ⟨b, hb, hnb⟩ := k.bag
  refine ⟨k.mark.trans h.mark, k.resolved.trans h.resolved,
    fun o ho => (k.imports o ho).trans (h.imports o ho), a ++ b, by rw [hb, ha, List.append_assoc],
    fun d hd => ?_⟩
  rcases List.mem_append.mp hd with hd | hd
  · exact hna d hd
  · exact hnb d hd

theorem settles_report (module code : Nat) (span : Span) (s : ExportState) {message : String}
    (hm : message ≠ cycleMessage) : Settles module s (s.report code span message) :=
  ⟨rfl, rfl, fun _ _ => rfl, _, rfl, by simpa using hm⟩

/-- A text that starts with another letter is not the cycle message. -/
theorem ne_cycleMessage {message : String} (hm : message.toList.head? ≠ some 'd') :
    message ≠ cycleMessage := by
  rintro rfl
  exact hm (by decide)

theorem unresolved_ne_cycle (name : String) : "unresolved import '" ++ name ++ "'" ≠ cycleMessage :=
  ne_cycleMessage (by simp [String.toList_append])

theorem settles_addImport (module : Nat) (use : UseItem) (name : String) (ns : Namespace)
    (target : Nat) (member : String) (s : ExportState) :
    Settles module s (addImport t module use name ns target member s) := by
  unfold addImport
  split
  · exact settles_report _ _ _ _ (ne_cycleMessage (by simp [String.toList_append]))
  split
  · exact settles_report _ _ _ _ (ne_cycleMessage (by simp [String.toList_append]))
  · exact ⟨rfl, rfl, fun o ho => by simp [ExportState.push, ho], [], by simp [ExportState.push]⟩

theorem settles_importLocals (module : Nat) (use : UseItem) (current : Nat) :
    ∀ (nss : List Namespace) (s : ExportState),
      Settles module s (importLocals t module use current nss s)
  | [], s => .refl _ s
  | ns :: rest, s => by
    unfold importLocals
    split
    · exact (settles_addImport _ _ _ _ _ _ s).trans (settles_importLocals _ _ _ rest _)
    · exact settles_importLocals _ _ _ rest s

theorem settles_importReexports (module : Nat) (use : UseItem) (current : Nat) :
    ∀ (nss : List Namespace) (s : ExportState) (resolved : Bool),
      Settles module s (importReexports t module use current nss s resolved).1
  | [], s, _ => .refl _ s
  | ns :: rest, s, resolved => by
    unfold importReexports
    split
    · exact settles_importReexports _ _ _ rest s resolved
    · exact (settles_addImport _ _ _ _ _ _ s).trans (settles_importReexports _ _ _ rest _ _)

/-- The errors a path can end in, none of them the cycle message. -/
theorem Tree.walkModules_message {segments : List String} {message : String} :
    ∀ {current : Nat}, t.walkModules current segments = .error message →
      message ≠ cycleMessage := by
  induction segments with
  | nil => intro current h; cases h
  | cons segment rest ih =>
    intro current h
    unfold Tree.walkModules at h
    split at h
    · cases h; exact unresolved_ne_cycle segment
    · exact ih h

theorem Tree.useModule_message {module : Nat} {use : UseItem} {message : String}
    (h : t.useModule module use = .error message) : message ≠ cycleMessage := by
  unfold Tree.useModule at h
  split at h
  · cases h; decide
  · cases h; decide
  · next head second rest _ =>
    cases hh : t.headModule module head with
    | ok first =>
      simp only [hh, bind, Except.bind] at h
      exact Tree.walkModules_message h
    | error text =>
      simp only [hh, bind, Except.bind, Except.error.injEq] at h
      subst h
      unfold Tree.headModule at hh
      split at hh
      · cases hh
      split at hh
      · cases hh
      split at hh
      · split at hh
        · cases hh; decide
        · cases hh
      · split at hh
        · cases hh; exact unresolved_ne_cycle head
        · cases hh

theorem settles_settleUse (module : Nat) (use : UseItem) (s : ExportState) :
    Settles module s (settleUse t module use s) := by
  unfold settleUse
  split
  · next h => exact settles_report _ _ _ _ (Tree.useModule_message h)
  split
  · exact settles_importLocals _ _ _ _ _
  · have hr := settles_importReexports (t := t) module use ‹Nat› namespaces s false
    dsimp only
    split
    · exact hr
    · exact hr.trans (settles_report _ _ _ _ (unresolved_ne_cycle _))

/-! ## The walk is a depth-first search -/

/-- The modules `resolve_exports` calls itself on, in order. -/
def Tree.targets (t : Tree) (module : Nat) : List Nat :=
  (t.uses module).filterMap fun u => t.useTarget module u.1

def cycleReported (bag : DiagBag) : Bool := bag.any fun d => d.message == cycleMessage

@[simp] theorem cycleReported_append (bag new : DiagBag) :
    cycleReported (bag ++ new) = (cycleReported bag || cycleReported new) := by
  simp [cycleReported]

/-- What the search sees of the state. -/
def ExportState.search (s : ExportState) : Lib.Search.State Nat := ⟨s.mark, cycleReported s.bag⟩

@[simp] theorem search_setMark (s : ExportState) (module : Nat) (mark : Mark) :
    (s.setMark module mark).search =
      { s.search with mark := Function.update s.search.mark module mark } := rfl

theorem Settles.search {module : Nat} {s s' : ExportState} (h : Settles module s s') :
    s'.search = s.search := by
  obtain ⟨new, hb, hn⟩ := h.bag
  have hq : cycleReported new = false := by simpa [cycleReported] using hn
  simp [ExportState.search, h.mark, hb, hq]

/-- A turn is the search's step along the target of its `use`, if it has one. -/
theorem turn_search {visit : Nat → ExportState → Option ExportState}
    {find : Nat → Lib.Search.State Nat → Option (Lib.Search.State Nat)}
    (hv : ∀ m s, (visit m s).map ExportState.search = find m s.search) (module : Nat)
    (s : ExportState) (u : UseItem × Nat) :
    (turn t visit module s u).map ExportState.search =
      match t.useTarget module u.1 with
      | none => some s.search
      | some target => find target s.search := by
  have hs : ExportState.search ∘ settleUse t module u.1 = ExportState.search :=
    funext fun s => (settles_settleUse module u.1 s).search
  rw [turn, Option.map_map, hs]
  cases t.useTarget module u.1 with
  | none => rfl
  | some target => exact hv target _

/-- **Simulation.** `resolve_exports` and the search walk the modules alike. -/
theorem resolveExports_search (t : Tree) (fuel : Nat) : ∀ (module : Nat) (s : ExportState),
    (resolveExports t fuel module s).map ExportState.search =
      Lib.Search.visit t.targets fuel module s.search := by
  induction fuel with
  | zero => intro module s; rfl
  | succ fuel ih =>
    intro module s
    have hfold : ∀ (l : List (UseItem × Nat)) (s : ExportState),
        (l.foldlM (turn t (resolveExports t fuel) module) s).map ExportState.search =
          (l.filterMap fun u => t.useTarget module u.1).foldlM
            (fun s b => Lib.Search.visit t.targets fuel b s) s.search := by
      intro l
      induction l with
      | nil => intro s; rfl
      | cons u l ihl =>
        intro s
        have hu := turn_search (t := t) (fun m s => ih m s) module s u
        simp only [List.foldlM_cons, Option.bind_eq_bind, List.filterMap_cons]
        cases hv : turn t (resolveExports t fuel) module s u with
        | none =>
          rw [hv] at hu
          cases ht : t.useTarget module u.1 with
          | none => simp [ht] at hu
          | some target => rw [ht] at hu; simp [List.foldlM_cons, ← hu]
        | some v =>
          rw [hv] at hu
          rw [Option.bind_some, ihl]
          cases ht : t.useTarget module u.1 with
          | none => rw [ht] at hu; rw [Option.some.inj hu]
          | some target => rw [ht] at hu; simp [List.foldlM_cons, ← hu]
    cases hm : s.mark module with
    | done => simp [resolveExports, Lib.Search.visit, ExportState.search, hm]
    | active =>
      simp [resolveExports, Lib.Search.visit, ExportState.search, hm, ExportState.report,
        ExportState.setMark, emit, cycleReported]
    | fresh =>
      have hm' : s.search.mark module = .fresh := hm
      have hf := hfold (t.uses module) (s.setMark module .active)
      rw [search_setMark] at hf
      simp only [resolveExports_fresh_eq hm, Lib.Search.visit, hm', Option.bind_eq_bind,
        Tree.targets, ← hf, Option.map_map]
      cases (t.uses module).foldlM (turn t (resolveExports t fuel) module)
        (s.setMark module .active) with
      | none => rfl
      | some u => rfl

theorem resolveModules_search (t : Tree) (fuel : Nat) :
    (resolveModules t fuel).map ExportState.search =
      Lib.Search.visitAll t.targets fuel (List.range t.modules.length) Lib.Search.start := by
  have hfold : ∀ (l : List Nat) (s : ExportState),
      (l.foldlM (fun s module => resolveExports t fuel module s) s).map ExportState.search =
        l.foldlM (fun s a => Lib.Search.visit t.targets fuel a s) s.search := by
    intro l
    induction l with
    | nil => intro s; rfl
    | cons m l ih =>
      intro s
      have hm := resolveExports_search t fuel m s
      simp only [List.foldlM_cons, Option.bind_eq_bind, ← hm]
      cases resolveExports t fuel m s with
      | none => rfl
      | some u => exact ih u
  exact hfold _ _

/-! ## The walk completes -/

theorem Tree.mem_targets {module target : Nat} :
    target ∈ t.targets module ↔ ∃ u ∈ t.uses module, t.useTarget module u.1 = some target := by
  simp [Tree.targets]

theorem Tree.useTarget_eq_some {module target : Nat} {use : UseItem} :
    t.useTarget module use = some target ↔
      t.useModule module use = .ok target ∧ t.isLocal target (useMember use) = false ∧
        target ≠ module := by
  unfold Tree.useTarget
  cases h : t.useModule module use with
  | error message => simp
  | ok current =>
    by_cases hl : t.isLocal current (useMember use) = true <;>
      by_cases hc : current = module <;> simp_all <;> grind

theorem Tree.targets_lt {module target : Nat} (hm : module < t.modules.length)
    (h : target ∈ t.targets module) : target < t.modules.length := by
  obtain ⟨u, _, hu⟩ := Tree.mem_targets.mp h
  exact Tree.useModule_lt hm (Tree.useTarget_eq_some.mp hu).1

/-- **Resolution terminates**, on cyclic trees as well. -/
theorem resolveAll_total (t : Tree) : ∃ s, resolveAll t = some s := by
  have hclosed : ∀ a ∈ List.range t.modules.length, ∀ b ∈ t.targets a,
      b ∈ List.range t.modules.length := by
    intro a ha b hb
    exact List.mem_range.mpr (Tree.targets_lt (List.mem_range.mp ha) hb)
  have hfuel : Lib.Search.freshCount (List.range t.modules.length) Lib.Search.start <
      t.modules.length + 1 :=
    Nat.lt_succ_of_le (by
      have := List.countP_le_length (p := fun a => Lib.Search.start.mark a = .fresh)
        (l := List.range t.modules.length)
      simpa [Lib.Search.freshCount] using this)
  obtain ⟨u, hu⟩ := Lib.Search.visitAll_total hclosed _ (fun _ h => h) _ hfuel
  rw [← resolveModules_search] at hu
  obtain ⟨s, hs, _⟩ := Option.map_eq_some_iff.mp hu
  exact ⟨s, hs⟩

/-! ## Import lists stay valid -/

/-- Recorded imports are final: each names a local item of its target, no two
share a name in one namespace, and none shadows a local item. -/
structure ImportsFinal (t : Tree) (s : ExportState) : Prop where
  target : ∀ module, ∀ imp ∈ s.imports module,
    imp.targetModule < t.modules.length ∧
      t.lookupLocal imp.targetModule imp.member imp.ns = true
  unique : ∀ module, (s.imports module).Pairwise fun a b => ¬ (a.ns = b.ns ∧ a.name = b.name)
  noLocal : ∀ module, ∀ imp ∈ s.imports module, t.lookupLocal module imp.name imp.ns = false

theorem importsFinal_start (t : Tree) : ImportsFinal t .start :=
  ⟨by simp [ExportState.start], by simp [ExportState.start], by simp [ExportState.start]⟩

/-- Only the import lists count. -/
theorem ImportsFinal.transfer {s s' : ExportState} (h : ImportsFinal t s)
    (he : s'.imports = s.imports) : ImportsFinal t s' :=
  ⟨he ▸ h.target, he ▸ h.unique, he ▸ h.noLocal⟩

theorem ImportsFinal.push {s : ExportState} (h : ImportsFinal t s) {module : Nat} {imp : Import}
    (ht : t.lookupLocal imp.targetModule imp.member imp.ns = true)
    (hl : t.lookupLocal module imp.name imp.ns = false)
    (hu : ∀ prior ∈ s.imports module, ¬ (prior.ns = imp.ns ∧ prior.name = imp.name)) :
    ImportsFinal t (s.push module imp) := by
  refine ⟨fun m i hi => ?_, fun m => ?_, fun m i hi => ?_⟩ <;> by_cases hm : m = module
  · subst hm
    simp only [ExportState.push, Function.update_self, List.mem_append, List.mem_singleton] at hi
    rcases hi with hi | rfl
    · exact h.target m i hi
    · exact ⟨Tree.lookupLocal_lt ht, ht⟩
  · exact h.target m i (by simpa [ExportState.push, hm] using hi)
  · subst hm
    simp only [ExportState.push, Function.update_self, List.pairwise_append]
    exact ⟨h.unique m, by simp, by simpa using hu⟩
  · simpa [ExportState.push, hm] using h.unique m
  · subst hm
    simp only [ExportState.push, Function.update_self, List.mem_append, List.mem_singleton] at hi
    rcases hi with hi | rfl
    · exact h.noLocal m i hi
    · exact hl
  · exact h.noLocal m i (by simpa [ExportState.push, hm] using hi)

theorem ImportsFinal.addImport {s : ExportState} (h : ImportsFinal t s) (module : Nat)
    (use : UseItem) (name : String) {ns : Namespace} {target : Nat} {member : String}
    (ht : t.lookupLocal target member ns = true) :
    ImportsFinal t (addImport t module use name ns target member s) := by
  unfold Resolve.addImport
  split
  · exact h.transfer rfl
  · next hl =>
    split
    · exact h.transfer rfl
    · next hu => exact h.push ht (by simpa using hl) (by simpa using hu)

theorem ImportsFinal.importLocals (module : Nat) (use : UseItem) (current : Nat) :
    ∀ (nss : List Namespace) {s : ExportState}, ImportsFinal t s →
      ImportsFinal t (importLocals t module use current nss s)
  | [], _, h => h
  | ns :: rest, s, h => by
    unfold Resolve.importLocals
    split
    · next hl => exact ImportsFinal.importLocals _ _ _ rest (h.addImport _ _ _ hl)
    · exact ImportsFinal.importLocals _ _ _ rest h

/-- A re-export is final already, so what is copied from it is. -/
theorem ImportsFinal.importReexports (module : Nat) (use : UseItem) (current : Nat) :
    ∀ (nss : List Namespace) {s : ExportState} (resolved : Bool), ImportsFinal t s →
      ImportsFinal t (importReexports t module use current nss s resolved).1
  | [], _, _, h => h
  | ns :: rest, s, resolved, h => by
    unfold Resolve.importReexports
    split
    · exact ImportsFinal.importReexports _ _ _ rest _ h
    · next imp hi =>
      have hns : imp.ns = ns := by
        have := List.find?_some hi
        simp only [Bool.and_eq_true, decide_eq_true_eq] at this
        exact this.1.2
      have ht := (h.target current imp (List.mem_of_find?_eq_some hi)).2
      exact ImportsFinal.importReexports _ _ _ rest _ (h.addImport _ _ _ (hns ▸ ht))

theorem ImportsFinal.settleUse {s : ExportState} (h : ImportsFinal t s) (module : Nat)
    (use : UseItem) : ImportsFinal t (settleUse t module use s) := by
  unfold Resolve.settleUse
  split
  · exact h.transfer rfl
  split
  · exact ImportsFinal.importLocals _ _ _ _ h
  · have hr := ImportsFinal.importReexports module use ‹Nat› namespaces false h
    dsimp only
    split
    · exact hr
    · exact hr.transfer rfl

theorem resolveExports_importsFinal {fuel module : Nat} {s s' : ExportState}
    (h : resolveExports t fuel module s = some s') (hs : ImportsFinal t s) : ImportsFinal t s' :=
  resolveExports_invariant (fun _ _ _ h => h.transfer rfl) (fun _ _ _ _ h => h.transfer rfl)
    (fun _ _ _ h => h.transfer rfl) (fun _ _ _ h => h.settleUse _ _) h hs

/-! ## Every `use` is entered once -/

/-- The places in one module that `resolve_use` was entered for. -/
def ExportState.entered (s : ExportState) (module : Nat) : List Nat :=
  (s.resolved.filter fun e => e.1 = module).map (·.2)

/-- Between two states a module's uses were entered in order if it stopped being
fresh in between, and none of them otherwise. -/
structure Enters (t : Tree) (module : Nat) (s s' : ExportState) : Prop where
  fresh : s'.mark module = .fresh → s.mark module = .fresh
  entered : s'.entered module = s.entered module ++
    if s.mark module = .fresh ∧ s'.mark module ≠ .fresh then (t.uses module).map (·.2) else []

theorem Enters.refl (module : Nat) (s : ExportState) : Enters t module s s :=
  ⟨id, by simp⟩

theorem Enters.trans {module : Nat} {s u v : ExportState} (h : Enters t module s u)
    (k : Enters t module u v) : Enters t module s v := by
  refine ⟨fun hf => h.fresh (k.fresh hf), ?_⟩
  rw [k.entered, h.entered, List.append_assoc]
  congr 1
  by_cases hu : u.mark module = .fresh
  · simp [hu, h.fresh hu]
  · have hv : v.mark module ≠ .fresh := fun hv => hu (k.fresh hv)
    simp [hu, hv]

/-- States that agree on a module's mark and log. -/
theorem Enters.of_eq {module : Nat} {s s' : ExportState} (hm : s'.mark module = s.mark module)
    (he : s'.entered module = s.entered module) : Enters t module s s' :=
  ⟨fun h => hm ▸ h, by simp [hm, he]⟩

theorem Enters.settle {module other : Nat} {s s' : ExportState} (h : Settles other s s') :
    Enters t module s s' :=
  .of_eq (by rw [h.mark]) (by rw [ExportState.entered, h.resolved]; rfl)

@[simp] theorem entered_log (s : ExportState) (module place other : Nat) :
    (s.log module place).entered other =
      s.entered other ++ if module = other then [place] else [] := by
  by_cases h : module = other <;> simp [ExportState.log, ExportState.entered, h]

@[simp] theorem entered_setMark (s : ExportState) (module other : Nat) (mark : Mark) :
    (s.setMark module mark).entered other = s.entered other := rfl

/-- The turns of a module that is not fresh enter its uses one after the other,
and every other module as the calls in between do. -/
theorem turns_enter {visit : Nat → ExportState → Option ExportState} {module : Nat}
    (hv : ∀ m s s', visit m s = some s' → ∀ k, Enters t k s s') :
    ∀ (l : List (UseItem × Nat)) {s s' : ExportState}, s.mark module ≠ .fresh →
      l.foldlM (turn t visit module) s = some s' →
      s'.mark module ≠ .fresh ∧ s'.entered module = s.entered module ++ l.map (·.2) ∧
        ∀ k, k ≠ module → Enters t k s s'
  | [], s, s', hm, h => by
    cases h
    exact ⟨hm, by simp, fun k _ => .refl k _⟩
  | u :: l, s, s', hm, h => by
    simp only [List.foldlM_cons, Option.bind_eq_bind, Option.bind_eq_some_iff] at h
    obtain ⟨v, hturn, hrest⟩ := h
    -- the descent sees the module as entered already
    have hstep : v.mark module ≠ .fresh ∧ v.entered module = s.entered module ++ [u.2] ∧
        ∀ k, k ≠ module → Enters t k s v := by
      obtain ⟨w, rfl, hw⟩ := turn_cases hturn
      have hset := settles_settleUse (t := t) module u.1 w
      have hlog : ∀ k, k ≠ module → Enters t k s (s.log module u.2) :=
        fun k hk => .of_eq rfl (by simp [Ne.symm hk])
      have hmain : ∀ k, Enters t k (s.log module u.2) w := by
        rcases hw with ⟨_, rfl⟩ | ⟨target, _, hw⟩
        · exact fun k => .refl k _
        · exact hv target _ _ hw
      have hmod := (hmain module).trans (.settle hset)
      refine ⟨fun hf => hm (hmod.fresh hf), ?_,
        fun k hk => ((hlog k hk).trans (hmain k)).trans (.settle hset)⟩
      rw [hmod.entered]
      have : (s.log module u.2).mark module ≠ .fresh := hm
      simp [this]
    obtain ⟨hvm, hve, hvk⟩ := hstep
    obtain ⟨hm', he', hk'⟩ := turns_enter hv l hvm hrest
    exact ⟨hm', by simp [he', hve], fun k hk => (hvk k hk).trans (hk' k hk)⟩

theorem resolveExports_enters {fuel : Nat} : ∀ {module : Nat} {s s' : ExportState},
    resolveExports t fuel module s = some s' → ∀ k, Enters t k s s' := by
  induction fuel with
  | zero => intro module s s' h; simp [resolveExports] at h
  | succ fuel ih =>
    intro module s s' h k
    cases hm : s.mark module with
    | done =>
      simp only [resolveExports, hm, Option.some.injEq] at h
      exact h ▸ .refl k s
    | active =>
      simp only [resolveExports, hm, Option.some.injEq] at h
      subst h
      by_cases hk : k = module
      · subst hk
        exact ⟨by simp [ExportState.setMark],
          by simp [hm, ExportState.report, ExportState.setMark, ExportState.entered]⟩
      · exact .of_eq (by simp [ExportState.setMark, ExportState.report, hk]) rfl
    | fresh =>
      obtain ⟨u, hu, rfl⟩ := resolveExports_fresh h hm
      obtain ⟨-, hue, huk⟩ := turns_enter (fun _ _ _ h => ih h) (t.uses module)
        (by simp [ExportState.setMark]) hu
      by_cases hk : k = module
      · subst hk
        refine ⟨by simp [ExportState.setMark], ?_⟩
        rw [entered_setMark, hue, entered_setMark]
        simp [hm, ExportState.setMark]
      · have h1 : Enters t k s (s.setMark module .active) :=
          .of_eq (by simp [ExportState.setMark, hk]) rfl
        have h2 : Enters t k u (u.setMark module .done) :=
          .of_eq (by simp [ExportState.setMark, hk]) rfl
        exact (h1.trans (huk k hk)).trans h2

/-! ## All modules -/

theorem resolveAll_enters {s : ExportState} (h : resolveAll t = some s) (module : Nat) :
    Enters t module .start s :=
  Lib.Search.foldlM_invariant h (.refl module .start)
    fun _ _ _ _ hp hs => hp.trans (resolveExports_enters hs module)

theorem resolveAll_search {s : ExportState} (h : resolveAll t = some s) :
    Lib.Search.visitAll t.targets (t.modules.length + 1) (List.range t.modules.length)
      Lib.Search.start = some s.search := by
  rw [← resolveModules_search, show resolveModules t (t.modules.length + 1) = some s from h]
  rfl

theorem resolveAll_not_fresh {s : ExportState} (h : resolveAll t = some s) {module : Nat}
    (hm : module < t.modules.length) : s.mark module ≠ .fresh :=
  Lib.Search.visitAll_not_fresh (resolveAll_search h) (List.mem_range.mpr hm)

/-- The places of a module's uses, in the order they are resolved. -/
theorem resolveAll_entered {s : ExportState} (h : resolveAll t = some s) (module : Nat) :
    s.entered module = (t.uses module).map (·.2) := by
  have he := (resolveAll_enters h module).entered
  rcases Nat.lt_or_ge module t.modules.length with hm | hm
  · simpa [resolveAll_not_fresh h hm, ExportState.start, ExportState.entered] using he
  · have hu : t.uses module = [] := by
      simp [Tree.uses, Tree.useItems, (t.node_of_le hm).1]
    simpa [hu, ExportState.start, ExportState.entered] using he

/-- Whether the item at a place of a module is a `use`. -/
def Tree.isUse (t : Tree) (module place : Nat) : Bool :=
  match (t.node module).items[place]? with
  | some (.use _) => true
  | _ => false

theorem Tree.mem_useItems (module : Nat) (u : UseItem × Nat) :
    u ∈ t.useItems module ↔ (t.node module).items[u.2]? = some (.use u.1) := by
  obtain ⟨use, place⟩ := u
  simp only [Tree.useItems, List.mem_filterMap, Prod.exists, List.mem_zipIdx_iff_getElem?]
  constructor
  · rintro ⟨item, i, hi, h⟩
    cases item <;> cases h
    exact hi
  · exact fun h => ⟨_, place, h, rfl⟩

theorem Tree.mem_uses (module : Nat) (u : UseItem × Nat) :
    u ∈ t.uses module ↔ (t.node module).items[u.2]? = some (.use u.1) := by
  rw [← t.mem_useItems]
  cases hp : u.1.isPub <;> simp [Tree.uses, hp]

theorem Tree.uses_nodup (t : Tree) (module : Nat) : ((t.uses module).map (·.2)).Nodup := by
  have hperm : (t.uses module).Perm (t.useItems module) := List.filter_append_perm _ _
  refine (hperm.map _).nodup_iff.mpr ?_
  have hsub : ∀ l : List (Item × Nat),
      List.Sublist ((l.filterMap useEntry).map (·.2)) (l.map (·.2)) := by
    intro l
    induction l with
    | nil => exact .slnil
    | cons e l ih =>
      rcases e with ⟨item, place⟩
      cases item with
      | use use => exact ih.cons_cons place
      | _ => exact ih.cons place
  refine (hsub _).nodup ?_
  rw [List.zipIdx_map_snd]
  exact List.nodup_range'

/-- A module's uses are its `use` items, each once. -/
theorem Tree.count_uses (t : Tree) (module place : Nat) :
    ((t.uses module).map (·.2)).count place = if t.isUse module place then 1 else 0 := by
  rw [(t.uses_nodup module).count]
  congr 1
  simp only [List.mem_map, Tree.mem_uses, Prod.exists, exists_eq_right, Tree.isUse, eq_iff_iff]
  constructor
  · rintro ⟨use, h⟩
    simp [h]
  · intro h
    split at h
    · exact ⟨_, ‹_›⟩
    · cases h

theorem count_resolved (l : List (Nat × Nat)) (module place : Nat) :
    l.count (module, place) = ((l.filter fun e => e.1 = module).map (·.2)).count place := by
  induction l with
  | nil => rfl
  | cons e l ih =>
    obtain ⟨m, p⟩ := e
    by_cases hm : m = module <;> by_cases hp : p = place <;> simp [hm, hp, ih]

/-- **Recorded imports are final and unambiguous.** Resolution terminates, enters
every `use` once, and every import it leaves is `ImportsFinal`. -/
theorem resolveAll_final (t : Tree) : ∃ s, resolveAll t = some s ∧
    (∀ module place, s.resolved.count (module, place) = if t.isUse module place then 1 else 0) ∧
    ImportsFinal t s := by
  obtain ⟨s, hs⟩ := resolveAll_total t
  refine ⟨s, hs, fun module place => ?_, ?_⟩
  · rw [← t.count_uses, ← resolveAll_entered hs]
    exact count_resolved _ _ _
  · exact Lib.Search.foldlM_invariant hs (importsFinal_start t)
      fun _ _ _ _ hp hrun => resolveExports_importsFinal hrun hp

end Alcy.Analyzer.Resolve
