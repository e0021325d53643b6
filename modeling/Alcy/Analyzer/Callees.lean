import Alcy.Analyzer.Contexts

/-! # What a call reaches

The signatures of a module's functions stand in one list, those of its `fn` items and those of the
members of its `impl` blocks in the order of the source. Calls of free functions search that list
by name; calls of associated functions leave out a parameter that is no receiver.
-/
namespace Alcy.Analyzer.Types
open Alcy.Ast Alcy.Diag Alcy.Ir
open Alcy.Analyzer.Resolve (Tree)
open Alcy.Lib.Contracts (Leaves bind_some)

/-! ## Declared functions -/

/-- The functions that an item declares, with whether it is a `fn` item. -/
def functionsOf : Item → List (String × Bool)
  | .fn fn => [(fn.name.name, true)]
  | .impl impl => impl.methods.map fun method => (method.name.name, false)
  | _ => []

/-- The functions of a module, in the order of the source. -/
def declaredFunctions (t : Tree) (module : Nat) : List (String × Bool) :=
  (t.node module).items.flatMap functionsOf

def CheckState.functionNames (st : CheckState) (module : Nat) : List String :=
  (st.modules module).functions.map (·.name)

/-- A step adds functions of these names to the module, and none to the others. -/
structure Collects (module : Nat) (names : List String) (st st' : CheckState) : Prop where
  own : st'.functionNames module = st.functionNames module ++ names
  others : ∀ m ≠ module, st'.functionNames m = st.functionNames m

variable {p : Package} {module : Nat} {names more : List String}

theorem Onward.collects {st st' : CheckState} (h : Onward st st') : Collects module [] st st' := by
  have hsame (m : Nat) : st'.functionNames m = st.functionNames m := by
    simp only [CheckState.functionNames, h.modules]
  exact ⟨by rw [hsame, List.append_nil], fun m _ => hsame m⟩

theorem Collects.trans {st st' st'' : CheckState} (h : Collects module names st st')
    (h' : Collects module more st' st'') : Collects module (names ++ more) st st'' where
  own := by rw [h'.own, h.own, List.append_assoc]
  others m hm := (h'.others m hm).trans (h.others m hm)

theorem collects_of_onward {α : Type} {m : CheckM α} (h : Leaves Onward m) :
    Leaves (Collects module []) m := fun st a st' hrun => (h st a st' hrun).collects

theorem collects_bind {α β : Type} {m : CheckM α} {k : α → CheckM β}
    (hm : Leaves (Collects module names) m) (hk : ∀ a, Leaves (Collects module more) (k a)) :
    Leaves (Collects module (names ++ more)) (m >>= k) := by
  intro st b st'' h
  obtain ⟨a, st', hrun, hrest⟩ := bind_some.1 h
  exact (hm st a st' hrun).trans (hk a st' b st'' hrest)

/-- What comes before adds nothing. -/
theorem collects_after {α β : Type} {m : CheckM α} {k : α → CheckM β} (hm : Leaves Onward m)
    (hk : ∀ a, Leaves (Collects module names) (k a)) : Leaves (Collects module names) (m >>= k) :=
  collects_bind (collects_of_onward hm) hk

theorem modifyModule_collects {f : CheckedModule → CheckedModule}
    (h : ∀ checked, (f checked).functions.map (·.name) = checked.functions.map (·.name) ++ names) :
    Leaves (Collects module names) (modifyModule module f) := by
  refine Leaves.modify fun st => ⟨?_, fun m hm => ?_⟩
  · simp only [CheckState.functionNames, Function.update_self, h]
  · simp only [CheckState.functionNames, Function.update_of_ne hm]

/-- A step that leaves the list of functions alone. -/
theorem modifyModule_collects_nil {f : CheckedModule → CheckedModule}
    (h : ∀ checked, (f checked).functions = checked.functions) :
    Leaves (Collects module []) (modifyModule module f) :=
  modifyModule_collects fun checked => by rw [h, List.append_nil]

theorem resolveSig_onward {self : Option TypeIdx} {fn : FnItem} {st st' : CheckState}
    {sig : FnSig} (h : resolveSig p module self fn st = some (sig, st')) :
    sig.name = fn.name.name ∧ Onward st st' := by
  obtain ⟨params, st₁, hparams, h⟩ := bind_some.1 h
  obtain ⟨ret, st₂, hret, h⟩ := bind_some.1 h
  cases h
  exact ⟨rfl, IsTrans.trans _ _ _ (resolveTypes_onward intern_onward _ _ _ _ hparams)
    (resolveReturn_onward _ _ _ _ hret)⟩

/-- Whatever follows a signature sees its name. -/
theorem resolveSig_collects {α : Type} {self : Option TypeIdx} {fn : FnItem} {k : FnSig → CheckM α}
    (hk : ∀ sig : FnSig, sig.name = fn.name.name → Leaves (Collects module names) (k sig)) :
    Leaves (Collects module names) (resolveSig p module self fn >>= k) := by
  intro st a st'' h
  obtain ⟨sig, st', hsig, h⟩ := bind_some.1 h
  obtain ⟨hname, honward⟩ := resolveSig_onward hsig
  exact honward.collects.trans (hk sig hname st' a st'' h)

theorem addFunction_collects {name : String} {sig : FnSig} (h : sig.name = name) :
    Leaves (Collects module [name]) (modifyModule module fun checked =>
      { checked with functions := checked.functions ++ [sig] }) :=
  modifyModule_collects fun checked => by simp [h]

theorem receiverOf_onward {self : Option TypeIdx} {params : List TypeIdx} :
    Leaves Onward (receiverOf self params) := by
  unfold receiverOf
  split
  · intro st kind st' h
    unfold classifyReceiver at h
    split at h
    · cases h
      exact Std.Refl.refl st
    · obtain ⟨node, _, h⟩ := Option.bind_eq_some_iff.1 h
      split at h
      · obtain ⟨row, _, h⟩ := Option.bind_eq_some_iff.1 h
        split at h
        · cases h
          exact Std.Refl.refl st
        · cases h
          exact Std.Refl.refl st
      · cases h
        exact Std.Refl.refl st
  · exact .pure _

theorem processMethod_collects (self : Option TypeIdx) (method : FnItem) :
    Leaves (Collects module [method.name.name]) (processMethod p module self method) := by
  refine resolveSig_collects fun sig hsig => ?_
  refine @collects_bind _ _ [] _ _ _ _ (addFunction_collects hsig) fun _ => ?_
  refine collects_after receiverOf_onward fun receiver => ?_
  refine collects_after ?_ fun self => modifyModule_collects_nil fun _ => rfl
  unfold selfOrError
  split
  · exact .pure _
  · exact errorType_onward

theorem forM_collects {κ : Type} {f : κ → CheckM Unit} {namesOf : κ → List String} {l : List κ}
    (h : ∀ x ∈ l, Leaves (Collects module (namesOf x)) (f x)) :
    Leaves (Collects module (l.flatMap namesOf)) (l.forM f) := by
  induction l with
  | nil => exact collects_of_onward (.pure ())
  | cons x l ih =>
    rw [List.flatMap_cons]
    exact collects_bind (h x (List.mem_cons_self ..)) fun _ =>
      ih fun y hy => h y (List.mem_cons_of_mem _ hy)

theorem implSelf_onward (impl : ImplItem) : Leaves Onward (implSelf p module impl) := by
  unfold implSelf
  split
  · split
    · exact report_onward.bind fun _ => .pure _
    · refine resolveTypePath_onward.bind fun target => ?_
      split
      · exact .pure _
      · refine Leaves.get.bind fun st => ?_
        split
        · exact (intern_onward _).bind fun _ => .pure _
        · exact report_onward.bind fun _ => .pure _
  · exact report_onward.bind fun _ => .pure _

theorem processNominal_collects (item : NominalItem) :
    Leaves (Collects module []) (processNominal p module item) := by
  refine collects_after Leaves.get fun st => ?_
  split
  · exact collects_of_onward (.pure ())
  · exact collects_after (intern_onward _) fun _ => modifyModule_collects_nil fun _ => rfl

theorem processStatic_collects (decl : StaticItem) :
    Leaves (Collects module []) (processStatic p module decl) :=
  collects_after (resolve_onward _) fun _ => modifyModule_collects_nil fun _ => rfl

/-- An item adds the functions that it declares. -/
theorem processItem_collects (item : Item) :
    Leaves (Collects module ((functionsOf item).map (·.1))) (processItem p module item) := by
  cases item with
  | struct decl => exact processNominal_collects _
  | enum decl => exact processNominal_collects _
  | fn fn => exact resolveSig_collects fun sig hsig => addFunction_collects hsig
  | static decl => exact processStatic_collects _
  | const decl => exact processStatic_collects _
  | impl impl =>
    refine collects_after errorType_onward fun _ => collects_after (implSelf_onward impl) fun self => ?_
    have hmethods := forM_collects fun method (_ : method ∈ impl.methods) =>
      @processMethod_collects p module self method
    rw [← List.map_eq_flatMap] at hmethods
    rwa [functionsOf, List.map_map]
  | mod span isPub name items isInline => exact collects_of_onward (.pure ())
  | use item => exact collects_of_onward (.pure ())

theorem processModule_collects :
    Leaves (Collects module ((declaredFunctions p.tree module).map (·.1))) (processModule p module) := by
  rw [declaredFunctions, List.map_flatMap]
  exact forM_collects fun item _ => processItem_collects item

/-- Registering the nominals declares no function. -/
theorem registerNominals_collects : Leaves (Collects module []) (registerNominals p) := by
  have hmodule (m : Nat) : Leaves (Collects module [])
      ((p.tree.node m).items.forM (registerItem m)) := by
    have h := @forM_collects module _ (registerItem m) (fun _ => []) (p.tree.node m).items
      fun item _ => ?_
    · rwa [List.flatMap_eq_nil_iff.2 fun _ _ => rfl] at h
    · unfold registerItem
      split
      · exact collects_of_onward (.pure ())
      · refine collects_after Leaves.get fun st => ?_
        split
        · exact collects_of_onward report_onward
        · split
          · exact collects_of_onward report_onward
          · exact .modify fun _ => ⟨(List.append_nil _).symm, fun _ _ => rfl⟩
  have h := @forM_collects module _ _ (fun _ => []) (List.range p.tree.modules.length)
    fun m _ => hmodule m
  rwa [List.flatMap_eq_nil_iff.2 fun _ _ => rfl] at h

/-- Each module of a list is given its functions once. -/
theorem processModules_names : ∀ (modules : List Nat) (st st' : CheckState), modules.Nodup →
    modules.forM (processModule p) st = some ((), st') → ∀ m, st'.functionNames m =
      st.functionNames m ++ if m ∈ modules then (declaredFunctions p.tree m).map (·.1) else []
  | [], st, st', _, h, m => by
    cases h
    simp
  | module :: modules, st, st', hnodup, h, m => by
    obtain ⟨hmodule, hnodup⟩ := List.nodup_cons.1 hnodup
    obtain ⟨_, st₁, hrun, hrest⟩ := bind_some.1 h
    have hstep := processModule_collects st _ st₁ hrun
    rw [processModules_names modules st₁ st' hnodup hrest m]
    by_cases hm : m = module
    · subst hm
      rw [hstep.own, if_neg hmodule, if_pos (List.mem_cons_self ..), List.append_nil]
    · simp only [hstep.others m hm, List.mem_cons, hm, false_or]

/-- What the list of functions is when the types of a package have been resolved. -/
theorem processAll_names {st st' : CheckState}
    (h : (List.range p.tree.modules.length).forM (processModule p) st = some ((), st'))
    (hempty : ∀ m, st.functionNames m = []) (m : Nat) :
    st'.functionNames m = (declaredFunctions p.tree m).map (·.1) := by
  rw [processModules_names _ st st' List.nodup_range h m, hempty, List.nil_append]
  split
  · rfl
  · next hm =>
    have hout : p.tree.modules.length ≤ m := by simpa using hm
    rw [declaredFunctions, Resolve.Tree.node, List.getD_eq_getElem?_getD, List.getElem?_eq_none hout]
    rfl

end Alcy.Analyzer.Types

namespace Alcy.Analyzer.Bodies
open Alcy.Ast Alcy.Diag Alcy.Ir Alcy.Analyzer.Types
open Alcy.Analyzer.Resolve (Tree Import)
open Alcy.Lib.Contracts (Ends bind_ok bind_of_ok)

variable {p : Package}

/-! ## States in which bodies are checked -/

/-- A state of the checker between the types of the package and its end. -/
def Checking (p : Package) (st : BodyState) : Prop :=
  ∃ typed, checkTypes p .start = .ok ((), typed) ∧ Onward typed.check st.check

/-- The functions of the modules are those of the source, in its order. -/
theorem Checking.functionNames {st : BodyState} (h : Checking p st) (module : Nat) :
    st.check.functionNames module = (declaredFunctions p.tree module).map (·.1) := by
  obtain ⟨typed, htypes, honward⟩ := h
  obtain ⟨_, st₁, hregister, hprocess⟩ := bind_ok.1 htypes
  obtain ⟨checked, hregistered, rfl⟩ := check_ok hregister
  obtain ⟨_, hprocessed, rfl⟩ := check_ok hprocess
  have hempty (m : Nat) : checked.functionNames m = [] := by
    exact (@registerNominals_collects p m _ _ _ hregistered).own
  rw [CheckState.functionNames, honward.modules]
  exact processAll_names hprocessed hempty module

/-- Checking an expression leads from such a state to another one. -/
theorem Checking.checkExpr {st st' : BodyState} (h : Checking p st) {module : Nat} {e : Expr}
    {expected : Option TypeIdx} {type : TypeIdx}
    (hrun : checkExpr p module e expected st = .ok (type, st')) : Checking p st' := by
  obtain ⟨typed, htypes, honward⟩ := h
  have hstep := (forwardRule.checkExpr module e expected).ends st type st' trivial hrun
  exact ⟨typed, htypes, IsTrans.trans _ _ _ honward hstep⟩

/-- And so does a statement. -/
theorem Checking.checkStmt {st st' : BodyState} (h : Checking p st) {module : Nat} {stmt : Stmt}
    (hrun : checkStmt p module stmt st = .ok ((), st')) : Checking p st' := by
  obtain ⟨typed, htypes, honward⟩ := h
  have hstep := (forwardRule.checkStmt module stmt).ends st () st' trivial hrun
  exact ⟨typed, htypes, IsTrans.trans _ _ _ honward hstep⟩

/-! ## Free functions -/

/-- Where a name is looked for: the module itself, then what its imports of the name lead to. -/
def places (imports : List Import) (module : Nat) (name : String) : List (Nat × String) :=
  (module, name) :: (imports.filter fun imp => imp.ns = .value ∧ imp.name = name).map fun imp =>
    (imp.targetModule, imp.member)

theorem lookupThrough_eq {α : Type} (nameOf : α → String) (entries : Nat → List α)
    (imports : List Import) (module : Nat) (name : String) :
    lookupThrough nameOf entries imports module name =
      (places imports module name).findSome? fun place =>
        firstNamed nameOf place.1 (entries place.1) place.2 := by
  unfold lookupThrough places
  rw [List.findSome?_cons]
  cases firstNamed nameOf module (entries module) name with
  | some found => rfl
  | none =>
    dsimp only
    induction imports with
    | nil => rfl
    | cons imp imports ih =>
      rw [List.findSome?_cons, List.filter_cons]
      by_cases himp : imp.ns = .value ∧ imp.name = name
      · rw [if_pos himp, if_pos (by simpa using himp), List.map_cons, List.findSome?_cons]
        rw [ih]
      · rw [if_neg himp, if_neg (by simpa using himp)]
        exact ih

/-- The entry is the first of its name in the list. -/
theorem firstNamed_some {α : Type} {nameOf : α → String} {module : Nat} {entries : List α}
    {name : String} {found : Found α} (h : firstNamed nameOf module entries name = some found) :
    found.module = module ∧ entries[found.index]? = some found.entry ∧ nameOf found.entry = name ∧
      ∀ j < found.index, ∀ e, entries[j]? = some e → nameOf e ≠ name := by
  obtain ⟨e, he, rfl⟩ := Option.map_eq_some_iff.1 h
  obtain ⟨hname, i, hi, hentry, hbefore⟩ := List.find?_eq_some_iff_getElem.1 he
  have hlt : i < entries.length := by simpa using hi
  obtain rfl : (entries[i], i) = e := by simpa using hentry
  refine ⟨rfl, List.getElem?_eq_getElem hlt, by simpa using hname, ?_⟩
  intro j hj e he
  obtain ⟨hlt, rfl⟩ := List.getElem?_eq_some_iff.1 he
  simpa using hbefore j hj

theorem firstNamed_none {α : Type} {nameOf : α → String} {module : Nat} {entries : List α}
    {name : String} (h : firstNamed nameOf module entries name = none) :
    name ∉ entries.map nameOf := by
  have hnone := List.find?_eq_none.1 (Option.map_eq_none_iff.1 h)
  intro hmem
  obtain ⟨e, he, rfl⟩ := List.mem_map.1 hmem
  obtain ⟨i, hi, rfl⟩ := List.getElem_of_mem he
  have hzip : (entries[i], i) ∈ entries.zipIdx := by
    rw [List.mem_zipIdx_iff_getElem?]
    exact List.getElem?_eq_getElem hi
  simpa using hnone _ hzip

/-- The place that answers for a name: the first one that declares a function of it. -/
def answering (p : Package) (module : Nat) (name : String) : Option (Nat × String) :=
  (places (p.imports module) module name).find? fun place =>
    (declaredFunctions p.tree place.1).any fun e => e.1 = place.2

/-- A `fn` item of the name stands before every `impl` block with a member of the name. -/
def FnFirst (items : List Item) (name : String) : Prop :=
  ∃ before fn after, items = before ++ Item.fn fn :: after ∧ fn.name.name = name ∧
    ∀ impl, Item.impl impl ∈ before → ∀ method ∈ impl.methods, method.name.name ≠ name

/-- An item without functions of the name makes no difference. -/
theorem fnFirst_cons {item : Item} {items : List Item} {name : String}
    (h : ∀ e ∈ functionsOf item, e.1 ≠ name) : FnFirst (item :: items) name ↔ FnFirst items name := by
  constructor
  · rintro ⟨before, fn, after, hitems, hname, hbefore⟩
    cases before with
    | nil =>
      cases hitems
      exact absurd hname (h _ (List.mem_singleton_self _))
    | cons first before =>
      cases hitems
      exact ⟨before, fn, after, rfl, hname, fun impl hi => hbefore impl (List.mem_cons_of_mem _ hi)⟩
  · rintro ⟨before, fn, after, rfl, hname, hbefore⟩
    refine ⟨item :: before, fn, after, rfl, hname, fun impl hi method hm => ?_⟩
    rcases List.mem_cons.1 hi with rfl | hi
    · exact h _ (List.mem_map_of_mem hm)
    · exact hbefore impl hi method hm

/-- It says what the first function of the name is. -/
theorem fnFirst_iff (items : List Item) (name : String) :
    (items.flatMap functionsOf).find? (fun e => e.1 = name) = some (name, true) ↔
      FnFirst items name := by
  induction items with
  | nil =>
    refine ⟨fun h => (by cases h), ?_⟩
    rintro ⟨before, fn, after, hitems, _⟩
    cases before <;> cases hitems
  | cons item items ih =>
    rw [List.flatMap_cons, List.find?_append]
    cases hitem : (functionsOf item).find? fun e => e.1 = name with
    | none =>
      have hnone : ∀ e ∈ functionsOf item, e.1 ≠ name := by
        intro e he
        simpa using List.find?_eq_none.1 hitem e he
      rw [Option.none_or, ih, fnFirst_cons hnone]
    | some e =>
      rw [Option.some_or]
      have hname : e.1 = name := by simpa using List.find?_some hitem
      have hmem := List.mem_of_find?_eq_some hitem
      cases item with
      | fn fn =>
        obtain rfl := List.mem_singleton.1 hmem
        refine ⟨fun _ => ⟨[], fn, items, rfl, hname, fun _ hi => by cases hi⟩, fun _ => ?_⟩
        rw [← hname]
      | impl impl =>
        obtain ⟨method, hmethod, rfl⟩ := List.mem_map.1 hmem
        refine ⟨fun h => by simp at h, ?_⟩
        rintro ⟨before, fn, after, hitems, _, hbefore⟩
        cases before with
        | nil => cases hitems
        | cons first before =>
          cases hitems
          exact absurd hname (hbefore impl (List.mem_cons_self ..) method hmethod)
      | _ => cases hmem

/-- The function that a name means stands first of its name where the name is declared. -/
theorem lookupFunction_some {st : BodyState} (h : Checking p st) {module : Nat} {name : String}
    {found : Found FnSig} (hfound : lookupFunction p st.check.modules module name = some found) :
    ∃ member, answering p module name = some (found.module, member) ∧ found.entry.name = member ∧
      (declaredFunctions p.tree found.module)[found.index]? =
        (declaredFunctions p.tree found.module).find? fun e => e.1 = member := by
  rw [lookupFunction, lookupThrough_eq] at hfound
  obtain ⟨before, place, after, hplaces, hplace, hbefore⟩ := List.findSome?_eq_some_iff.1 hfound
  obtain ⟨hmodule, hentry, hname, hearlier⟩ := firstNamed_some hplace
  have hnames (m : Nat) : (st.check.modules m).functions.map (·.name) =
      (declaredFunctions p.tree m).map (·.1) := h.functionNames m
  have hat (j : Nat) : ((st.check.modules place.1).functions[j]?).map (·.name) =
      ((declaredFunctions p.tree place.1)[j]?).map (·.1) := by
    rw [← List.getElem?_map, ← List.getElem?_map, hnames]
  obtain ⟨e, he, hefound⟩ := Option.map_eq_some_iff.1 ((hat found.index).symm.trans
    (congrArg _ hentry))
  have hmem : (declaredFunctions p.tree place.1).any fun e => e.1 = place.2 :=
    List.any_eq_true.2 ⟨e, List.mem_of_getElem? he, by simp [hefound, hname]⟩
  refine ⟨place.2, ?_, hname, ?_⟩
  · rw [hmodule]
    refine List.find?_eq_some_iff_append.2 ⟨hmem, before, after, hplaces, fun other hother => ?_⟩
    have hnone := firstNamed_none (hbefore other hother)
    rw [hnames] at hnone
    rw [Bool.not_eq_true', List.any_eq_false]
    intro e he heq
    rw [decide_eq_true_eq] at heq
    exact hnone (heq ▸ List.mem_map_of_mem he)
  · rw [hmodule, he]
    obtain ⟨hlt, rfl⟩ := List.getElem?_eq_some_iff.1 he
    refine (List.find?_eq_some_iff_getElem.2 ⟨by simp [hefound, hname], found.index, hlt, rfl, ?_⟩).symm
    intro j hj
    have hj' : j < (declaredFunctions p.tree place.1).length := by omega
    have hsome := (hat j).trans (congrArg _ (List.getElem?_eq_getElem hj'))
    obtain ⟨sig, hsig, hsigname⟩ := Option.map_eq_some_iff.1 hsome
    have hne := hearlier j hj sig hsig
    rw [hsigname] at hne
    simpa using hne

/-- Where a path is looked up as a value: the module that its prefix leads to, and its last name. -/
def lookedUp (t : Tree) (module : Nat) (path : Path) : Option (Nat × String) :=
  match path.segments.map (·.name) with
  | [] => none
  | [name] => some (module, name)
  | segments =>
    match walkModulePrefix t module path "value" with
    | .error _ => none
    | .ok target => some (target, segments.getLastD "")

/-- What a lookup in a module yields is no associated function, and a function only as found. -/
theorem lookupValue_some {modules : Nat → CheckedModule} {module : Nat} {name : String}
    {value : PathValue} (h : lookupValue p modules module name = some value) :
    (∀ found, value = .function found → lookupFunction p modules module name = some found) ∧
      ∀ method, value ≠ .assocFunction method := by
  unfold lookupValue at h
  split at h
  · cases h
    exact ⟨by simp, by simp⟩
  · obtain ⟨found, hfound, rfl⟩ := Option.map_eq_some_iff.1 h
    refine ⟨fun other hf => ?_, by simp⟩
    cases hf
    exact hfound

/-- A value that is no function of either kind. -/
structure NoCallee (value : Option PathValue) : Prop where
  free : ∀ found, value ≠ some (.function found)
  assoc : ∀ method, value ≠ some (.assocFunction method)

theorem noCallee_none : NoCallee none := ⟨by simp, by simp⟩

theorem variantValue_noCallee (variant : VariantMatch) (st : BodyState) :
    Ends st (do return some (← variantValue p variant)) fun value _ => NoCallee value := by
  refine .bind (.after fun type u => .after fun decl u => ?_)
  split
  · exact .pure (.pure ⟨by simp, by simp⟩)
  · exact .pure (.pure ⟨by simp, by simp⟩)

theorem resolveBlessedCtor_noCallee (table : Table) (name : String) :
    NoCallee (resolveBlessedCtor table name) := by
  unfold resolveBlessedCtor
  split
  · constructor
    · intro found h
      obtain ⟨_, _, hv⟩ := Option.map_eq_some_iff.1 h
      cases hv
    · intro method h
      obtain ⟨_, _, hv⟩ := Option.map_eq_some_iff.1 h
      cases hv
  · exact noCallee_none

theorem unresolved_noCallee (span : Span) (message : String) (st : BodyState) :
    Ends st (unresolved span message) fun value _ => NoCallee value :=
  .after fun _ _ => .pure noCallee_none

theorem resolveOther_noCallee (module : Nat) (path : Path) (name : String) (st : BodyState) :
    Ends st (resolveOther p module path name) fun value _ => NoCallee value := by
  refine .after fun variant st => ?_
  split
  · exact variantValue_noCallee _ st
  · refine .bind (.get ?_)
    split
    · next value hvalue =>
      exact .pure (hvalue ▸ resolveBlessedCtor_noCallee _ name)
    · split
      · exact .pure ⟨by simp, by simp⟩
      · exact unresolved_noCallee _ _ st

/-- What a path may mean when it is looked up as the name in the module. -/
structure LookedUp (p : Package) (st : BodyState) (module : Nat) (name : String)
    (value : Option PathValue) : Prop where
  free : ∀ found, value = some (.function found) →
    lookupFunction p st.check.modules module name = some found
  assoc : ∀ method, value ≠ some (.assocFunction method)

theorem NoCallee.lookedUp {st : BodyState} {module : Nat} {name : String}
    {value : Option PathValue} (h : NoCallee value) : LookedUp p st module name value :=
  ⟨fun found hf => absurd hf (h.free found), h.assoc⟩

theorem lookedUp_of_lookupValue {st : BodyState} {module : Nat} {name : String} {value : PathValue}
    (h : lookupValue p st.check.modules module name = some value) :
    LookedUp p st module name (some value) where
  free found hf := (lookupValue_some h).1 found (Option.some.inj hf)
  assoc method hm := (lookupValue_some h).2 method (Option.some.inj hm)

theorem resolveName_lookedUp (module : Nat) (path : Path) (name : String) (st : BodyState) :
    Ends st (resolveName p module path name) fun value _ => LookedUp p st module name value := by
  refine .bind (.get ?_)
  split
  · exact .pure ⟨by simp, by simp⟩
  · split
    · next value hvalue => exact .pure (lookedUp_of_lookupValue hvalue)
    · exact (resolveOther_noCallee _ _ _ st).mono fun value _ hno => hno.lookedUp

theorem walkPrefix_ends (module : Nat) (path : Path) (st : BodyState) :
    Ends st (walkPrefix p module path) fun target st' => ∀ m, target = some m →
      walkModulePrefix p.tree module path "value" = .ok m ∧ st' = st := by
  unfold walkPrefix
  split
  · exact .after fun _ _ => .pure fun m h => by cases h
  · next target hwalk =>
    refine .pure fun m h => ?_
    cases h
    exact ⟨hwalk, rfl⟩

theorem resolveInModule_lookedUp (variants : Bool) (module : Nat) (path : Path) (member : String)
    (st : BodyState) :
    Ends st (resolveInModule p variants module path member) fun value _ => NoCallee value ∨
      ∃ target, walkModulePrefix p.tree module path "value" = .ok target ∧
        LookedUp p st target member value := by
  refine .bind ((walkPrefix_ends module path st).mono fun target st' hwalk => ?_)
  cases target with
  | none => exact .pure (.inl noCallee_none)
  | some target =>
    obtain ⟨hto, rfl⟩ := hwalk target rfl
    refine .bind (.get ?_)
    split
    · next value hvalue => exact .pure (.inr ⟨target, hto, lookedUp_of_lookupValue hvalue⟩)
    · split
      · exact (variantValue_noCallee _ _).mono fun value _ => .inl
      · exact (unresolved_noCallee _ _ _).mono fun value _ => .inl

/-- What `Type::member` may mean. -/
structure MemberOf (value : Option PathValue) : Prop where
  free : ∀ found, value ≠ some (.function found)
  assoc : ∀ method, value = some (.assocFunction method) → method.receiver = .none

theorem NoCallee.memberOf {value : Option PathValue} (h : NoCallee value) : MemberOf value :=
  ⟨h.free, fun method hm => absurd hm (h.assoc method)⟩

theorem assocFunction_receiver (nominal : Option Nat) (member : String) (st : BodyState) :
    Ends st (assocFunction p nominal member) fun method _ => ∀ m, method = some m →
      m.receiver = .none := by
  unfold assocFunction
  split
  · exact .pure fun m h => by cases h
  · refine .after fun self st => .bind (.get (.pure fun m h => ?_))
    simpa using (Option.filter_eq_some_iff.1 h).2

theorem resolveMember_memberOf (module : Nat) (path : Path) (head member : String)
    (st : BodyState) :
    Ends st (resolveMember p module path head member) fun value _ => MemberOf value := by
  refine .bind (.get ?_)
  dsimp only
  split
  · exact (variantValue_noCallee _ _).mono fun value _ h => h.memberOf
  · refine .bind ((assocFunction_receiver _ _ _).mono fun method st hmethod => ?_)
    cases method with
    | some method =>
      refine .pure ⟨by simp, fun other h => ?_⟩
      cases h
      exact hmethod method rfl
    | none =>
      refine .bind (.get ?_)
      split
      · next value hvalue =>
        unfold qualifiedCtor at hvalue
        split at hvalue
        · exact .pure (hvalue ▸ resolveBlessedCtor_noCallee _ _).memberOf
        · cases hvalue
      · exact (unresolved_noCallee _ _ _).mono fun value _ h => h.memberOf

/-- A path that means a function leads to a module where its last name does; one that means an
associated function has two segments, and the function has no receiver. -/
theorem resolveValuePath_callee (module : Nat) (path : Path) (st : BodyState) :
    Ends st (resolveValuePath p module path) fun value _ =>
      (∀ found, value = some (.function found) → ∃ target name,
        lookedUp p.tree module path = some (target, name) ∧
          lookupFunction p st.check.modules target name = some found) ∧
      ∀ method, value = some (.assocFunction method) →
        path.segments.length = 2 ∧ method.receiver = .none := by
  have hmodule (variants : Bool) (member : String) :
      Ends st (resolveInModule p variants module path member) fun value _ =>
        (∀ found, value = some (.function found) → ∃ target name,
          (match walkModulePrefix p.tree module path "value" with
            | .error _ => none
            | .ok target => some (target, member)) = some (target, name) ∧
            lookupFunction p st.check.modules target name = some found) ∧
        ∀ method, value ≠ some (.assocFunction method) := by
    refine (resolveInModule_lookedUp _ _ _ _ _).mono fun value _ hv => ?_
    rcases hv with hno | ⟨target, hwalk, hlooked⟩
    · exact ⟨fun found h => absurd h (hno.free found), hno.assoc⟩
    · exact ⟨fun found h => ⟨target, member, by rw [hwalk], hlooked.free found h⟩, hlooked.assoc⟩
  have hlength : (path.segments.map (·.name)).length = path.segments.length := List.length_map _
  unfold resolveValuePath lookedUp
  rw [← hlength]
  generalize path.segments.map (·.name) = segments
  rcases segments with _ | ⟨head, _ | ⟨member, _ | ⟨third, rest⟩⟩⟩
  · exact .pure ⟨by simp, by simp⟩
  · exact (resolveName_lookedUp _ _ _ _).mono fun value _ hv =>
      ⟨fun found h => ⟨_, _, rfl, hv.free found h⟩, fun method h => absurd h (hv.assoc method)⟩
  · dsimp only
    split
    · exact (hmodule true member).mono fun value _ hv =>
        ⟨hv.1, fun method h => absurd h (hv.2 method)⟩
    · exact (resolveMember_memberOf _ _ _ _ _).mono fun value _ hv =>
        ⟨fun found h => absurd h (hv.free found), fun method h => ⟨rfl, hv.assoc method h⟩⟩
  · exact (hmodule false _).mono fun value _ hv =>
      ⟨hv.1, fun method h => absurd h (hv.2 method)⟩

/-- The function that a path means is one of a `fn` item. -/
def Found.isFnItem (p : Package) (found : Found FnSig) : Prop :=
  (declaredFunctions p.tree found.module)[found.index]? = some (found.entry.name, true)

/-- **A free call reaches a `fn` item exactly where that item comes first**: in the module that
answers for the name, a `fn` item of the name stands before every `impl` block with a member of it. -/
theorem freeCall_iff {st st' : BodyState} (h : Checking p st) {module : Nat} {path : Path}
    {found : Found FnSig}
    (hpath : resolveValuePath p module path st = .ok (some (.function found), st')) :
    found.isFnItem p ↔ ∀ target name place, lookedUp p.tree module path = some (target, name) →
      answering p target name = some place → FnFirst (p.tree.node place.1).items place.2 := by
  obtain ⟨target, name, hlooked, hfound⟩ := (resolveValuePath_callee module path st _ _ hpath).1 found rfl
  obtain ⟨member, hanswers, hname, hfirst⟩ := lookupFunction_some h hfound
  have hiff : found.isFnItem p ↔ FnFirst (p.tree.node found.module).items member := by
    rw [Found.isFnItem, hfirst, hname]
    exact fnFirst_iff _ _
  rw [hiff]
  constructor
  · intro hf target' name' place hlooked' hplace
    rw [hlooked] at hlooked'
    cases hlooked'
    rw [hanswers] at hplace
    cases hplace
    exact hf
  · intro hall
    exact hall target name _ hlooked hanswers

/-- `struct T {} impl T { fn f(_: T) {} } fn f() {} fn g() { f() }`, or with the free function in
front. -/
def clashing (free : Bool) : Package :=
  let method := implOf "T" [fnOf "f" [⟨.wildcard default, namedType "T"⟩] none none]
  let function := Item.fn (fnOf "f" [] none none)
  let caller := Item.fn (fnOf "g" [] none (some (callTo ["f"] [])))
  onlyRoot (unitStruct "T" ::
    if free then [function, method, caller] else [method, function, caller])

/-- What the path `f` means when the types have been resolved: the function's place. -/
def meaningOfF (p : Package) : Option (Nat × Nat × String) :=
  match (checkTypes p >>= fun _ => resolveValuePath p 0 (pathTo ["f"])) .start with
  | .ok (some (.function found), _) => some (found.module, found.index, found.entry.name)
  | _ => none

theorem meaningOfF_some {p : Package} {place : Nat × Nat × String} (h : meaningOfF p = some place) :
    ∃ st st' found, Checking p st ∧
      resolveValuePath p 0 (pathTo ["f"]) st = .ok (some (.function found), st') ∧
      (found.module, found.index, found.entry.name) = place := by
  unfold meaningOfF at h
  split at h
  · next found st' hrun =>
    obtain ⟨_, typed, htypes, hpath⟩ := bind_ok.1 hrun
    exact ⟨typed, st', found, ⟨typed, htypes, Std.Refl.refl _⟩, hpath, Option.some.inj h⟩
  · cases h

/-- Where the free function comes first it is reached. -/
theorem freeInFront_reached : ∃ st st' found, Checking (clashing true) st ∧
    resolveValuePath (clashing true) 0 (pathTo ["f"]) st = .ok (some (.function found), st') ∧
    found.isFnItem (clashing true) := by
  have hmeaning : meaningOfF (clashing true) = some (0, 0, "f") := by decide +kernel
  obtain ⟨st, st', found, hst, hpath, _⟩ := meaningOfF_some hmeaning
  refine ⟨st, st', found, hst, hpath, (freeCall_iff hst hpath).2 ?_⟩
  intro target name place hlooked hplace
  obtain ⟨rfl, rfl⟩ : 0 = target ∧ "f" = name := by simpa [lookedUp, pathTo] using hlooked
  have hanswers : answering (clashing true) 0 "f" = some (0, "f") := by decide +kernel
  cases hanswers.symm.trans hplace
  refine ⟨[unitStruct "T"], fnOf "f" [] none none, _, rfl, rfl, fun impl himpl => ?_⟩
  cases List.mem_singleton.1 himpl

/-- Where the `impl` block comes first its member is reached, and the call `f()` is rejected. -/
theorem methodInFront_reached : (∃ st st' found, Checking (clashing false) st ∧
      resolveValuePath (clashing false) 0 (pathTo ["f"]) st = .ok (some (.function found), st') ∧
      ¬ found.isFnItem (clashing false)) ∧
    reported (checkPackage (clashing false) .start) =
      some [(kAnalyzerArityError, "'f' expects 1 arguments, found 0")] := by
  refine ⟨?_, by decide +kernel⟩
  have hmeaning : meaningOfF (clashing false) = some (0, 0, "f") := by decide +kernel
  obtain ⟨st, st', found, hst, hpath, hplace⟩ := meaningOfF_some hmeaning
  refine ⟨st, st', found, hst, hpath, ?_⟩
  obtain ⟨module, index, entry⟩ := found
  simp only [Prod.mk.injEq] at hplace
  obtain ⟨rfl, rfl, hname⟩ := hplace
  rw [Found.isFnItem, hname]
  show ¬ (declaredFunctions (clashing false).tree 0)[0]? = some ("f", true)
  decide +kernel

/-! ## Associated functions -/

/-- A call passes exactly with as many arguments as parameters, each argument is then checked
against its own parameter, and the number in the error does not wrap around. -/
structure ArityChecked (skipFirst : Bool) (args : List Operand) (params : List TypeIdx) : Prop where
  accepted : args.length = params.length → pairArgs skipFirst args params = some (args.zip params)
  rejected : args.length ≠ params.length → pairArgs skipFirst args params = none
  shown : pairArgs skipFirst args params = none → shownArity skipFirst params ≤ params.length

theorem pairArgs_none {skipFirst : Bool} {args : List Operand} {params : List TypeIdx} :
    pairArgs skipFirst args params = none ↔
      args.length + fixedParams skipFirst ≠ params.length := by
  unfold pairArgs
  split
  · next h => exact ⟨fun _ => h, fun _ => rfl⟩
  · next h => exact ⟨fun hs => (by cases hs), fun hn => absurd hn h⟩

theorem usizeSub_le {a b : Nat} (h : b ≤ a) : usizeSub a b ≤ a := by
  unfold usizeSub
  rcases Nat.lt_or_ge (a - b) (2 ^ 64) with hlt | hge
  · have hsplit : a + 2 ^ 64 - b = a - b + 2 ^ 64 := by omega
    rw [hsplit, Nat.add_mod_right, Nat.mod_eq_of_lt hlt]
    exact Nat.sub_le a b
  · have hmod := Nat.mod_lt (a + 2 ^ 64 - b) (Nat.two_pow_pos 64)
    omega

/-- Without a parameter left out every call is checked right. -/
theorem arityChecked_false (args : List Operand) (params : List TypeIdx) :
    ArityChecked false args params where
  accepted h := by
    unfold pairArgs
    rw [if_neg (not_not_intro (show args.length + fixedParams false = params.length from h))]
    rfl
  rejected h := pairArgs_none.2 h
  shown _ := usizeSub_le (Nat.zero_le _)

/-- With one left out the call must fail anyway, and there must be one to leave out. -/
theorem arityChecked_true (args : List Operand) (params : List TypeIdx) :
    ArityChecked true args params ↔ args.length ≠ params.length ∧
      args.length + 1 ≠ params.length ∧ 1 ≤ params.length := by
  constructor
  · intro h
    have hne : args.length ≠ params.length := by
      intro heq
      have hnone : pairArgs true args params = none := pairArgs_none.2 (by
        show args.length + 1 ≠ params.length
        omega)
      rw [h.accepted heq] at hnone
      cases hnone
    have hrejected := pairArgs_none.1 (h.rejected hne)
    refine ⟨hne, hrejected, ?_⟩
    rcases params with _ | ⟨first, rest⟩
    · have hshown := h.shown (h.rejected hne)
      exact absurd hshown (by decide)
    · exact Nat.le_add_left 1 rest.length
  · rintro ⟨hne, hrejected, hpos⟩
    exact ⟨fun heq => absurd heq hne, fun _ => pairArgs_none.2 hrejected,
      fun _ => usizeSub_le hpos⟩

/-- **A call of an associated function is checked right exactly where it must be rejected** and the
function has a parameter: neither as many arguments as parameters, nor one less. -/
theorem assocCall_iff {module : Nat} {path : Path} {method : MethodInfo} {st st' : BodyState}
    (hpath : resolveValuePath p module path st = .ok (some (.assocFunction method), st'))
    (pathSpan span : Span) (args : List Operand) (expected : Option TypeIdx) :
    method.receiver = .none ∧
      checkCall p module (.path pathSpan path) args expected span st =
        (do
          checkCallArgs args method.sig.params span method.sig.name true
          unifyExpected expected method.sig.ret span "call" : BodyM TypeIdx) st' ∧
      (ArityChecked true args method.sig.params ↔ args.length ≠ method.sig.params.length ∧
        args.length + 1 ≠ method.sig.params.length ∧ 1 ≤ method.sig.params.length) := by
  obtain ⟨hlength, hreceiver⟩ := (resolveValuePath_callee module path st _ _ hpath).2 method rfl
  refine ⟨hreceiver, ?_, arityChecked_true _ _⟩
  have hbuiltin : builtin p st module path = none := by
    unfold builtin singleSegment
    split
    · next hsegments =>
      rw [hsegments] at hlength
      cases hlength
    · rfl
  unfold checkCall
  refine (bind_of_ok (a := st) (u := st) rfl).trans ?_
  rw [hbuiltin]
  exact bind_of_ok hpath

/-- `struct T {} impl T { fn f(_: i32) {} fn g() {} fn m(_: i32, _: i32) {} }` with the functions. -/
def associating (functions : List FnItem) : Package :=
  let number : FnParam := ⟨.wildcard default, .primitive default .i32⟩
  let methods := [fnOf "f" [number] none none, fnOf "g" [] none none,
    fnOf "m" [number, number] none none]
  onlyRoot (unitStruct "T" :: implOf "T" methods :: functions.map .fn)

def one : Expr := .literal default ⟨.integer, default, "1"⟩

/-- How many parameters the associated function has that a path means after the types. -/
def paramsOf (p : Package) (path : Path) : Option Nat :=
  match (checkTypes p >>= fun _ => resolveValuePath p 0 path) .start with
  | .ok (some (.assocFunction method), _) => some method.sig.params.length
  | _ => none

theorem paramsOf_some {path : Path} {n : Nat} (h : paramsOf p path = some n) :
    ∃ st st' method, Checking p st ∧
      resolveValuePath p 0 path st = .ok (some (.assocFunction method), st') ∧
      method.sig.params.length = n := by
  unfold paramsOf at h
  split at h
  · next method st' hrun =>
    obtain ⟨_, typed, htypes, hpath⟩ := bind_ok.1 hrun
    exact ⟨typed, st', method, ⟨typed, htypes, Std.Refl.refl _⟩, hpath, Option.some.inj h⟩
  · cases h

/-- `T::m()` is rejected as it should be. -/
theorem tooFew_rejected : ∃ st st' method, Checking (associating []) st ∧
    resolveValuePath (associating []) 0 (pathTo ["T", "m"]) st =
      .ok (some (.assocFunction method), st') ∧ ArityChecked true [] method.sig.params := by
  have hparams : paramsOf (associating []) (pathTo ["T", "m"]) = some 2 := by decide +kernel
  obtain ⟨st, st', method, hst, hpath, hlength⟩ := paramsOf_some hparams
  refine ⟨st, st', method, hst, hpath, ?_⟩
  refine (assocCall_iff hpath default default [] none).2.2.2 ?_
  rw [hlength]
  decide

/-- `T::f(1)` and `T::g()` are rejected, with a number that wraps around for `g`. -/
theorem exactArguments_rejected : (∃ st st' method, Checking (associating []) st ∧
      resolveValuePath (associating []) 0 (pathTo ["T", "f"]) st =
        .ok (some (.assocFunction method), st') ∧
      ∀ arg, ¬ ArityChecked true [arg] method.sig.params) ∧
    reported (checkPackage (associating [fnOf "h" [] none (some (callTo ["T", "f"] [one])),
        fnOf "k" [] none (some (callTo ["T", "g"] []))]) .start) =
      some [(kAnalyzerArityError, "'f' expects 0 arguments, found 1"),
        (kAnalyzerArityError, "'g' expects 18446744073709551615 arguments, found 0")] := by
  refine ⟨?_, by decide +kernel⟩
  have hparams : paramsOf (associating []) (pathTo ["T", "f"]) = some 1 := by decide +kernel
  obtain ⟨st, st', method, hst, hpath, hlength⟩ := paramsOf_some hparams
  refine ⟨st, st', method, hst, hpath, fun arg hchecked => ?_⟩
  exact ((arityChecked_true _ _).1 hchecked).1 hlength.symm

end Alcy.Analyzer.Bodies
