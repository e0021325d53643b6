import Alcy.Analyzer.ExportCycles

/-! # What a `use` provides

The imports that a `use` records as a function of the import lists it reads (`settleUse_eq`), and
the rule for walks that report no cycle (`resolveExports_rule`): every module a `use` descends to is
done when the `use` is settled.
-/
namespace Alcy.Analyzer.Resolve
open Alcy.Ast Alcy.Diag
open Tree (namespaces useMember useName)

/-! ## What a `use` provides -/

/-- `lookup_reexport` in a list of imports. -/
def findReexport (imports : List Import) (member : String) (ns : Namespace) : Option Import :=
  imports.find? fun imp => imp.isPub && imp.ns = ns && imp.name = member

/-- What a `use` records, re-exports looked up in `imports`. -/
def provided (t : Tree) (imports : Nat → List Import) (module : Nat) (use : UseItem) :
    List Import :=
  match t.useModule module use with
  | .error _ => []
  | .ok current =>
    if t.isLocal current (useMember use) then
      (namespaces.filter (t.lookupLocal current (useMember use))).map fun ns =>
        ⟨useName use, ns, current, useMember use, use.isPub⟩
    else
      namespaces.filterMap fun ns =>
        (findReexport (imports current) (useMember use) ns).map fun imp =>
          ⟨useName use, ns, imp.targetModule, imp.member, use.isPub⟩

/-- No two imports share a name in one namespace. -/
def Distinct (imports : List Import) : Prop :=
  imports.Pairwise fun a b => ¬ (a.ns = b.ns ∧ a.name = b.name)

/-- The import list of `module` with more imports at its end. -/
def ExportState.append (s : ExportState) (module : Nat) (new : List Import) : ExportState :=
  { s with imports := Function.update s.imports module (s.imports module ++ new) }

variable {t : Tree}

@[simp] theorem append_nil (s : ExportState) (module : Nat) : s.append module [] = s := by
  simp [ExportState.append]

theorem append_append (s : ExportState) (module : Nat) (new more : List Import) :
    (s.append module new).append module more = s.append module (new ++ more) := by
  simp [ExportState.append, List.append_assoc]

@[simp] theorem append_imports (s : ExportState) (module : Nat) (new : List Import) :
    (s.append module new).imports module = s.imports module ++ new := by
  simp [ExportState.append]

/-- What a `use` provides has its name and its visibility, in distinct namespaces. -/
theorem mem_provided {imports : Nat → List Import} {module : Nat} {use : UseItem} {imp : Import}
    (h : imp ∈ provided t imports module use) :
    imp.name = useName use ∧ imp.isPub = use.isPub := by
  unfold provided at h
  split at h
  · cases h
  split at h
  · obtain ⟨ns, _, rfl⟩ := List.mem_map.1 h
    exact ⟨rfl, rfl⟩
  · obtain ⟨ns, _, h⟩ := List.mem_filterMap.1 h
    obtain ⟨found, _, rfl⟩ := Option.map_eq_some_iff.1 h
    exact ⟨rfl, rfl⟩

/-! ## Settling a `use` -/

/-- Recording one import after the other. -/
def addAll (t : Tree) (module : Nat) (use : UseItem) (new : List Import) (s : ExportState) :
    ExportState :=
  new.foldl (fun s imp => addImport t module use imp.name imp.ns imp.targetModule imp.member s) s

theorem importLocals_eq (module : Nat) (use : UseItem) (current : Nat) (nss : List Namespace)
    (s : ExportState) : importLocals t module use current nss s =
      addAll t module use ((nss.filter (t.lookupLocal current (useMember use))).map fun ns =>
        ⟨useName use, ns, current, useMember use, use.isPub⟩) s := by
  induction nss generalizing s with
  | nil => rfl
  | cons ns rest ih =>
    rw [importLocals, ih]
    by_cases h : t.lookupLocal current (useMember use) ns = true <;> simp [h, addAll]

/-- An import that is recorded is of no use to lookups in another namespace. -/
theorem findReexport_addImport (module : Nat) (use : UseItem) (name : String) (ns ns' : Namespace)
    (hne : ns' ≠ ns) (target : Nat) (member : String) (s : ExportState) (current : Nat)
    (wanted : String) :
    findReexport ((addImport t module use name ns target member s).imports current) wanted ns' =
      findReexport (s.imports current) wanted ns' := by
  unfold addImport
  split
  · rfl
  split
  · rfl
  · by_cases hc : current = module
    · subst hc
      simp [ExportState.push, findReexport, List.find?_append, hne.symm]
    · simp [ExportState.push, hc]

theorem importReexports_eq (module : Nat) (use : UseItem) (current : Nat) :
    ∀ (nss : List Namespace), nss.Nodup → ∀ (s : ExportState) (resolved : Bool),
      let new := nss.filterMap fun ns =>
        (findReexport (s.imports current) (useMember use) ns).map fun imp =>
          (⟨useName use, ns, imp.targetModule, imp.member, use.isPub⟩ : Import)
      importReexports t module use current nss s resolved =
        (addAll t module use new s, resolved || !new.isEmpty)
  | [], _, s, resolved => by simp [importReexports, addAll]
  | ns :: rest, hnd, s, resolved => by
    obtain ⟨hns, hrest⟩ := List.nodup_cons.1 hnd
    rw [importReexports]
    have hfind : lookupReexport s current (useMember use) ns =
      findReexport (s.imports current) (useMember use) ns := rfl
    cases h : findReexport (s.imports current) (useMember use) ns with
    | none =>
      rw [hfind, h]
      simp only [importReexports_eq module use current rest hrest s resolved, List.filterMap_cons, h,
        Option.map_none]
    | some imp =>
      rw [hfind, h]
      have hsame : ∀ ns' ∈ rest, findReexport ((addImport t module use (useName use) ns
          imp.targetModule imp.member s).imports current) (useMember use) ns' =
          findReexport (s.imports current) (useMember use) ns' := by
        intro ns' hns'
        refine findReexport_addImport _ _ _ _ _ ?_ _ _ _ _ _
        rintro rfl
        exact hns hns'
      have hmap : (rest.filterMap fun ns' => (findReexport ((addImport t module use (useName use) ns
          imp.targetModule imp.member s).imports current) (useMember use) ns').map fun imp =>
            (⟨useName use, ns', imp.targetModule, imp.member, use.isPub⟩ : Import)) =
          rest.filterMap fun ns' => (findReexport (s.imports current) (useMember use) ns').map
            fun imp => ⟨useName use, ns', imp.targetModule, imp.member, use.isPub⟩ :=
        List.filterMap_congr fun ns' hns' => by rw [hsame ns' hns']
      simp only [importReexports_eq module use current rest hrest, hmap, List.filterMap_cons, h,
        Option.map_some, addAll, List.foldl_cons]
      simp

/-- Settling a `use` whose path leads to a module: record what it provides, or report that this is
nothing. -/
theorem settleUse_eq {module : Nat} {use : UseItem} {current : Nat}
    (hc : t.useModule module use = .ok current) (s : ExportState) :
    settleUse t module use s =
      if provided t s.imports module use = [] then
        s.report kAnalyzerUnresolvedImport use.span
          ("unresolved import '" ++ useMember use ++ "'")
      else addAll t module use (provided t s.imports module use) s := by
  unfold settleUse provided
  simp only [hc]
  by_cases hl : t.isLocal current (useMember use) = true
  · have hne : namespaces.filter (t.lookupLocal current (useMember use)) ≠ [] := by
      obtain ⟨ns, hns, h⟩ := List.any_eq_true.1 hl
      exact List.ne_nil_of_mem (List.mem_filter.2 ⟨hns, h⟩)
    simp only [hl, if_true, importLocals_eq, List.map_eq_nil_iff, hne, if_false]
  · simp only [hl, if_false, Bool.false_eq_true,
      importReexports_eq module use current namespaces (by decide) s false, Bool.false_or]
    generalize namespaces.filterMap _ = new
    cases new <;> simp [addAll]

theorem report_bag_ne_nil (s : ExportState) (code : Nat) (span : Span) (message : String) :
    (s.report code span message).bag ≠ [] := by
  simp [ExportState.report, emit]

/-- An import that fits is recorded. -/
theorem addImport_of_fits {module : Nat} {use : UseItem} {name : String} {ns : Namespace}
    {s : ExportState} (target : Nat) (member : String)
    (hl : t.lookupLocal module name ns = false)
    (hu : ∀ prior ∈ s.imports module, ¬ (prior.ns = ns ∧ prior.name = name)) :
    addImport t module use name ns target member s =
      s.append module [⟨name, ns, target, member, use.isPub⟩] := by
  have hany : ((s.imports module).any fun prior => prior.ns = ns && prior.name = name) = false := by
    simpa using hu
  unfold addImport
  rw [hl, hany]
  rfl

/-- An import that causes no report is recorded. -/
theorem addImport_of_clean {module : Nat} {use : UseItem} {name : String} {ns : Namespace}
    {s : ExportState} {target : Nat} {member : String}
    (h : (addImport t module use name ns target member s).bag = []) :
    addImport t module use name ns target member s =
      s.append module [⟨name, ns, target, member, use.isPub⟩] := by
  unfold addImport at h ⊢
  split at h
  · exact absurd h (report_bag_ne_nil _ _ _ _)
  · next hl =>
    split at h
    · exact absurd h (report_bag_ne_nil _ _ _ _)
    · next hu =>
      rw [if_neg hl, if_neg hu]
      rfl

theorem addAll_of_fits {module : Nat} {use : UseItem} {new : List Import} {s : ExportState}
    (hpub : ∀ imp ∈ new, imp.isPub = use.isPub)
    (hl : ∀ imp ∈ new, t.lookupLocal module imp.name imp.ns = false)
    (hd : Distinct (s.imports module ++ new)) :
    addAll t module use new s = s.append module new := by
  induction new generalizing s with
  | nil => simp [addAll]
  | cons imp new ih =>
    obtain ⟨hi, hnew⟩ := List.forall_mem_cons.1 hl
    obtain ⟨hpi, hpnew⟩ := List.forall_mem_cons.1 hpub
    have hu : ∀ prior ∈ s.imports module, ¬ (prior.ns = imp.ns ∧ prior.name = imp.name) :=
      fun prior hp => (List.pairwise_append.1 hd).2.2 prior hp imp (List.mem_cons_self ..)
    have hadd : addImport t module use imp.name imp.ns imp.targetModule imp.member s =
        s.append module [imp] := by
      rw [addImport_of_fits _ _ hi hu, ← hpi]
    have hrest : addAll t module use new (s.append module [imp]) =
        (s.append module [imp]).append module new := by
      refine ih hpnew hnew ?_
      rw [append_imports, List.append_assoc]
      exact hd
    rw [addAll, List.foldl_cons, hadd]
    rw [addAll] at hrest
    rw [hrest, append_append]
    rfl

/-- The bag only grows. -/
theorem bag_addImport (module : Nat) (use : UseItem) (name : String) (ns : Namespace)
    (target : Nat) (member : String) (s : ExportState) :
    s.bag <+: (addImport t module use name ns target member s).bag := by
  obtain ⟨new, h, _⟩ := (settles_addImport module use name ns target member s).bag
  exact h ▸ List.prefix_append _ _

theorem addAll_of_clean {module : Nat} {use : UseItem} {new : List Import} {s : ExportState}
    (hpub : ∀ imp ∈ new, imp.isPub = use.isPub) (h : (addAll t module use new s).bag = []) :
    addAll t module use new s = s.append module new := by
  induction new generalizing s with
  | nil => simp [addAll]
  | cons imp new ih =>
    obtain ⟨hpi, hpnew⟩ := List.forall_mem_cons.1 hpub
    have hgrows : ∀ (l : List Import) (s : ExportState), s.bag <+: (addAll t module use l s).bag := by
      intro l
      induction l with
      | nil => exact fun s => List.prefix_refl _
      | cons x l ih => exact fun s => (bag_addImport ..).trans (ih _)
    have hfirst : (addImport t module use imp.name imp.ns imp.targetModule imp.member s).bag = [] :=
      List.prefix_nil.1 (h ▸ hgrows new _)
    have hadd := addImport_of_clean hfirst
    rw [← hpi] at hadd
    rw [addAll, List.foldl_cons, hadd] at h ⊢
    have hrest := ih hpnew h
    rw [addAll] at hrest
    rw [hrest, append_append]
    rfl

/-! ## Walks that meet no cycle -/

/-- What a walk keeps: modules that are done or in progress stay so, and their import lists stay as
they are, `except` for some. -/
structure Extends (except : Nat → Prop) (s s' : ExportState) : Prop where
  done : ∀ c, s.mark c = .done → s'.mark c = .done
  active : ∀ c, s.mark c = .active → s'.mark c = .active
  imports : ∀ c, s.mark c ≠ .fresh → ¬ except c → s'.imports c = s.imports c

theorem Extends.refl (except : Nat → Prop) (s : ExportState) : Extends except s s :=
  ⟨fun _ => id, fun _ => id, fun _ _ _ => rfl⟩

theorem Extends.trans {except : Nat → Prop} {s u v : ExportState} (h : Extends except s u)
    (k : Extends except u v) : Extends except s v := by
  refine ⟨fun c hc => k.done c (h.done c hc), fun c hc => k.active c (h.active c hc),
    fun c hc he => ?_⟩
  have hu : u.mark c ≠ .fresh := by
    cases hm : s.mark c with
    | fresh => exact absurd hm hc
    | active => rw [h.active c hm]; decide
    | done => rw [h.done c hm]; decide
  exact (k.imports c hu he).trans (h.imports c hc he)

theorem Extends.weaken {except except' : Nat → Prop} {s s' : ExportState}
    (h : Extends except s s') (he : ∀ c, except c → except' c) : Extends except' s s' :=
  ⟨h.done, h.active, fun c hc hn => h.imports c hc (mt (he c) hn)⟩

theorem Settles.extends {module : Nat} {s s' : ExportState} (h : Settles module s s') :
    Extends (· = module) s s' :=
  ⟨fun c hc => by rw [h.mark]; exact hc, fun c hc => by rw [h.mark]; exact hc,
    fun c _ hne => h.imports c hne⟩

theorem bag_settleUse (module : Nat) (use : UseItem) (s : ExportState) :
    s.bag <+: (settleUse t module use s).bag := by
  obtain ⟨new, h, _⟩ := (settles_settleUse module use s).bag
  exact h ▸ List.prefix_append _ _

/-- The bag only grows. -/
theorem bag_resolveExports {fuel module : Nat} {s s' : ExportState}
    (h : resolveExports t fuel module s = some s') : s.bag <+: s'.bag :=
  resolveExports_invariant (P := fun u => s.bag <+: u.bag) (fun _ _ _ => id)
    (fun _ _ _ _ hp => hp.trans (List.prefix_append _ _)) (fun _ _ _ => id)
    (fun _ module use hp => hp.trans (bag_settleUse module use _)) h (List.prefix_refl _)

theorem bag_turn {fuel module : Nat} {s s' : ExportState} {u : UseItem × Nat}
    (h : turn t (resolveExports t fuel) module s u = some s') : s.bag <+: s'.bag := by
  obtain ⟨v, rfl, ⟨_, rfl⟩ | ⟨target, _, hv⟩⟩ := turn_cases h
  · exact bag_settleUse module u.1 (s.log module u.2)
  · exact (bag_resolveExports hv).trans (bag_settleUse _ _ _)

theorem bag_turns {fuel module : Nat} {l : List (UseItem × Nat)} {s s' : ExportState}
    (h : l.foldlM (turn t (resolveExports t fuel) module) s = some s') : s.bag <+: s'.bag :=
  Lib.Search.foldlM_invariant (P := fun u => s.bag <+: u.bag) h (List.prefix_refl _)
    fun _ _ _ _ hp hu => hp.trans (bag_turn hu)

/-- **Rule for walks whose bag stays `ok`**, which excludes the report of a cycle. `inv` holds
between calls, `part m p` while `m` is in progress and its uses `p` are settled. -/
theorem resolveExports_rule {ok : DiagBag → Prop} {inv : ExportState → Prop}
    {part : Nat → List (UseItem × Nat) → ExportState → Prop}
    (hok : ∀ bag bag', bag <+: bag' → ok bag' → ok bag)
    (hcycle : ∀ bag, ok bag → cycleReported bag = false)
    (hlog : ∀ s module place, inv s → inv (s.log module place))
    (hstart : ∀ module s, inv s → s.mark module = .fresh → part module [] (s.setMark module .active))
    (hpart : ∀ module p s, part module p s → inv s ∧ s.mark module = .active)
    (hturn : ∀ module p u l s v, t.uses module = p ++ u :: l → part module p s → inv v →
      Extends (fun _ => False) s v → (∀ c, t.useTarget module u.1 = some c → v.mark c = .done) →
      ok (settleUse t module u.1 v).bag → part module (p ++ [u]) (settleUse t module u.1 v))
    (hend : ∀ module s, part module (t.uses module) s → inv (s.setMark module .done)) {fuel : Nat} :
    ∀ {module : Nat} {s s' : ExportState}, resolveExports t fuel module s = some s' → ok s'.bag →
      inv s → inv s' ∧ s'.mark module = .done ∧ Extends (fun _ => False) s s' := by
  induction fuel with
  | zero => intro module s s' h; simp [resolveExports] at h
  | succ fuel ih =>
    intro module s s' h hs' hi
    cases hm : s.mark module with
    | done =>
      simp only [resolveExports, hm, Option.some.injEq] at h
      subst h
      exact ⟨hi, hm, .refl _ _⟩
    | active =>
      simp only [resolveExports, hm, Option.some.injEq] at h
      subst h
      have hc := hcycle _ hs'
      simp [ExportState.report, ExportState.setMark, emit, cycleReported] at hc
    | fresh =>
      obtain ⟨u, hu, rfl⟩ := resolveExports_fresh h hm
      have hturns : ∀ (l p : List (UseItem × Nat)) (s : ExportState), t.uses module = p ++ l →
          l.foldlM (turn t (resolveExports t fuel) module) s = some u → part module p s →
          part module (t.uses module) u ∧ Extends (· = module) s u := by
        intro l
        induction l with
        | nil =>
          intro p s hp hl hs
          cases hl
          rw [hp, List.append_nil]
          exact ⟨hs, .refl _ _⟩
        | cons x l ihl =>
          intro p s hp hl hs
          simp only [List.foldlM_cons, Option.bind_eq_bind, Option.bind_eq_some_iff] at hl
          obtain ⟨v, hv, hrest⟩ := hl
          have hokv : ok v.bag := hok _ _ (bag_turns hrest) hs'
          obtain ⟨w, rfl, hw⟩ := turn_cases hv
          have hlogged : inv (s.log module x.2) := hlog _ _ _ (hpart _ _ _ hs).1
          have hdescent : inv w ∧ Extends (fun _ => False) s w ∧
              ∀ c, t.useTarget module x.1 = some c → w.mark c = .done := by
            rcases hw with ⟨ht, rfl⟩ | ⟨target, ht, hw⟩
            · refine ⟨hlogged, ⟨fun _ => id, fun _ => id, fun _ _ _ => rfl⟩, fun c hc => ?_⟩
              cases ht.symm.trans hc
            · obtain ⟨hiw, hdone, hext⟩ := ih hw (hok _ _ (bag_settleUse _ _ _) hokv) hlogged
              refine ⟨hiw, ⟨hext.done, hext.active, hext.imports⟩, fun c hc => ?_⟩
              cases ht.symm.trans hc
              exact hdone
          obtain ⟨hiw, hext, htarget⟩ := hdescent
          have hx := hturn module p x l s w hp hs hiw hext htarget hokv
          obtain ⟨hpart', hext'⟩ := ihl (p ++ [x]) _ (by simpa using hp) hrest hx
          exact ⟨hpart', ((hext.weaken fun _ => False.elim).trans
            (settles_settleUse module x.1 w).extends).trans hext'⟩
      obtain ⟨hp, hext⟩ := hturns (t.uses module) [] _ rfl hu (hstart module s hi hm)
      have hne (c : Nat) (hc : s.mark c ≠ .fresh) : c ≠ module := fun h => hc (h ▸ hm)
      have hmark (c : Nat) (hc : s.mark c ≠ .fresh) :
          (s.setMark module .active).mark c = s.mark c ∧
            (u.setMark module .done).mark c = u.mark c := by
        simp [ExportState.setMark, hne c hc]
      refine ⟨hend module u hp, by simp [ExportState.setMark], fun c hc => ?_, fun c hc => ?_,
        fun c hc _ => ?_⟩
      · have h := hmark c (by rw [hc]; decide)
        exact h.2.trans (hext.done c (h.1.trans hc))
      · have h := hmark c (by rw [hc]; decide)
        exact h.2.trans (hext.active c (h.1.trans hc))
      · exact hext.imports c (by rwa [(hmark c hc).1]) (hne c hc)

/-- The loop over all modules leaves each of them done. -/
theorem resolveModules_rule {ok : DiagBag → Prop} {inv : ExportState → Prop} {fuel : Nat}
    (hok : ∀ bag bag', bag <+: bag' → ok bag' → ok bag)
    (hcall : ∀ {module : Nat} {s s' : ExportState}, resolveExports t fuel module s = some s' →
      ok s'.bag → inv s → inv s' ∧ s'.mark module = .done ∧ Extends (fun _ => False) s s') :
    ∀ (l : List Nat) {s s' : ExportState},
      l.foldlM (fun s module => resolveExports t fuel module s) s = some s' → ok s'.bag → inv s →
        inv s' ∧ (∀ module ∈ l, s'.mark module = .done) ∧ Extends (fun _ => False) s s' := by
  intro l
  induction l with
  | nil =>
    intro s s' h _ hi
    cases h
    exact ⟨hi, nofun, .refl _ _⟩
  | cons module l ih =>
    intro s s' h hs' hi
    simp only [List.foldlM_cons, Option.bind_eq_bind, Option.bind_eq_some_iff] at h
    obtain ⟨v, hv, hrest⟩ := h
    have hbag : v.bag <+: s'.bag :=
      Lib.Search.foldlM_invariant (P := fun u => v.bag <+: u.bag) hrest (List.prefix_refl _)
        fun _ _ _ _ hp hu => hp.trans (bag_resolveExports hu)
    obtain ⟨hiv, hdone, hext⟩ := hcall hv (hok _ _ hbag hs') hi
    obtain ⟨his', hl, hext'⟩ := ih hrest hs' hiv
    refine ⟨his', fun m hm => ?_, hext.trans hext'⟩
    rcases List.mem_cons.1 hm with rfl | hm
    · exact hext'.done m hdone
    · exact hl m hm

end Alcy.Analyzer.Resolve
