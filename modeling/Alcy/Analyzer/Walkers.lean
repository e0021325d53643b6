import Alcy.Analyzer.Types
import Alcy.Lib.Guards
import Mathlib.Data.List.GetD
import Mathlib.Data.List.Nodup

/-! # Two walks along a path

The resolver follows the children that a module lists, the checker searches all modules for the first
one with this parent. In the trees that `build_tree` makes, the children of a module are the modules
whose parent it is, in order, so the two walks lead to the same module.
-/
namespace Alcy.Analyzer.Types
open Alcy.Ast
open Alcy.Analyzer.Resolve (ModuleNode Tree)
open Alcy.Lib.Guards (bind_eq_ok)

/-! ## The trees of `build_tree` -/

/-- The path of a child module. -/
def childPath (path name : String) : String :=
  if path = "" then name else path ++ "::" ++ name

/-- What one turn of `build_children` does for a declared module that is found: `add_module`, and the
new index goes to the end of the parent's children. -/
def addChild (modules : List ModuleNode) (module : Nat) (name : String) (file : Option Nat)
    (items : List Item) : List ModuleNode :=
  modules.modify module (fun node => { node with children := node.children ++ [modules.length] }) ++
    [⟨childPath (modules.getD module default).path name, file, items, some module, []⟩]

/-- The lists of modules that `build_tree` goes through, in whatever order it takes its work. -/
inductive Built : List ModuleNode → Prop
  | root (file : Option Nat) (items : List Item) : Built [⟨"", file, items, none, []⟩]
  | child {modules : List ModuleNode} (module : Nat) (name : String) (file : Option Nat)
      (items : List Item) : Built modules → module < modules.length →
        Built (addChild modules module name file items)

/-- The children of a module are the modules whose parent it is. -/
structure Linked (modules : List ModuleNode) : Prop where
  parent_lt : ∀ c up, (modules.getD c default).parent = some up → up < modules.length
  children_eq : ∀ m < modules.length, (modules.getD m default).children =
    (List.range modules.length).filter fun c => (modules.getD c default).parent = some m

section
variable {modules : List ModuleNode} {module : Nat} {name : String} {file : Option Nat}
  {items : List Item}

@[simp] theorem length_addChild :
    (addChild modules module name file items).length = modules.length + 1 := by
  simp [addChild]

/-- The new module. -/
theorem getD_addChild_self : (addChild modules module name file items).getD modules.length default =
    ⟨childPath (modules.getD module default).path name, file, items, some module, []⟩ := by
  rw [addChild, List.getD_append_right _ _ _ _ (by simp)]
  simp

/-- The modules that were there. -/
theorem getD_addChild {c : Nat} (hc : c < modules.length) :
    (addChild modules module name file items).getD c default =
      if module = c then { modules.getD c default with
        children := (modules.getD c default).children ++ [modules.length] }
      else modules.getD c default := by
  rw [addChild, List.getD_append _ _ _ _ (by simpa using hc)]
  simp only [List.getD_eq_getElem?_getD, List.getElem?_modify, List.getElem?_eq_getElem hc]
  split <;> rfl

theorem parent_addChild {c : Nat} (hc : c < modules.length) :
    ((addChild modules module name file items).getD c default).parent =
      (modules.getD c default).parent := by
  rw [getD_addChild hc]
  split <;> rfl

theorem Linked.addChild (h : Linked modules) (hm : module < modules.length) :
    Linked (addChild modules module name file items) := by
  have hbeyond {c : Nat} (hc : modules.length + 1 ≤ c) :
      (Types.addChild modules module name file items).getD c default = default :=
    List.getD_eq_default _ _ (by simpa using hc)
  refine ⟨fun c up hup => ?_, fun m hlt => ?_⟩
  · rw [length_addChild]
    rcases Nat.lt_trichotomy c modules.length with hc | rfl | hc
    · rw [parent_addChild hc] at hup
      exact Nat.lt_succ_of_lt (h.parent_lt c up hup)
    · rw [getD_addChild_self, Option.some.injEq] at hup
      omega
    · rw [hbeyond hc] at hup
      cases hup
  · -- the old modules keep their parents, and the new one is the last of the list
    have hold : ((List.range modules.length).filter fun c =>
        ((Types.addChild modules module name file items).getD c default).parent = some m) =
        (List.range modules.length).filter fun c => (modules.getD c default).parent = some m := by
      refine List.filter_congr fun c hc => ?_
      rw [parent_addChild (List.mem_range.1 hc)]
    rw [length_addChild, List.range_succ, List.filter_append, hold, List.filter_singleton,
      getD_addChild_self]
    rw [length_addChild] at hlt
    rcases Nat.lt_or_ge m modules.length with hlt | hge
    · rw [← h.children_eq m hlt, getD_addChild hlt]
      by_cases heq : module = m <;> simp [heq]
    · obtain rfl : m = modules.length := by omega
      have hnone : ((List.range modules.length).filter fun c =>
          (modules.getD c default).parent = some modules.length) = [] := by
        refine List.filter_eq_nil_iff.2 fun c _ hup => ?_
        exact absurd (h.parent_lt c _ (by simpa using hup)) (Nat.lt_irrefl _)
      rw [hnone, getD_addChild_self]
      simp [Nat.ne_of_lt hm]

end

theorem Built.linked {modules : List ModuleNode} (h : Built modules) : Linked modules := by
  induction h with
  | root file items =>
    refine ⟨fun c up hup => ?_, fun m hm => ?_⟩
    · cases c <;> cases hup
    · obtain rfl : m = 0 := by simpa using hm
      rfl
  | child module name file items _ hm ih => exact ih.addChild hm

/-! ## The walks -/

variable {t : Tree} {module : Nat}

/-- The parents of the checker are those of the resolver. -/
theorem parent_eq (h : Linked t.modules) (hm : module < t.modules.length) :
    parent t module = (t.node module).parent := by
  have hlist : ((List.range t.modules.length).filter fun m => (t.node m).children.contains module) =
      (List.range t.modules.length).filter fun m => (t.node module).parent = some m := by
    refine List.filter_congr fun m hlt => ?_
    rw [Resolve.Tree.node, h.children_eq m (List.mem_range.1 hlt)]
    simp only [List.contains_eq_mem, List.mem_filter, List.mem_range, hm, decide_eq_true_eq,
      true_and]
    rfl
  rw [parent, hlist]
  cases hup : (t.node module).parent with
  | none => simp
  | some up =>
    have hlt : up < t.modules.length := h.parent_lt module up hup
    have hone : ((List.range t.modules.length).filter fun m => some up = some m) = [up] := by
      have hbeq : ((List.range t.modules.length).filter fun m => some up = some m) =
          (List.range t.modules.length).filter (· == up) :=
        List.filter_congr fun m _ => by simp [Bool.beq_eq_decide_eq, eq_comm]
      rw [hbeq, List.filter_beq,
        List.count_eq_one_of_mem List.nodup_range (List.mem_range.2 hlt)]
      rfl
    rw [hone]
    rfl

/-- **One child** of a name, by either search. -/
theorem findChildModule_eq (h : Linked t.modules) (hm : module < t.modules.length) (name : String) :
    findChildModule t module name = t.findChildModule module name := by
  have hchildren : (t.node module).children = _ := h.children_eq module hm
  rw [findChildModule, Tree.findChildModule, hchildren, List.find?_filter, ← List.head?_filter,
    ← List.head?_filter]
  refine congrArg List.head? (List.filter_congr fun c hc => ?_)
  rw [parent_eq h (List.mem_range.1 hc), Resolve.Tree.node, Bool.decide_and, Bool.decide_eq_true,
    Bool.decide_eq_true]

theorem prefixHead_ok (h : Linked t.modules) (hm : module < t.modules.length) {what head : String}
    (hhead : head = t.packageName → head = "package") (target : Nat) :
    prefixHead t module what head = .ok target ↔ t.headModule module head = .ok target := by
  unfold prefixHead Tree.headModule
  by_cases hp : head = "package"
  · simp [hp]
  have hne : ¬ (head = "package" ∨ head = t.packageName) := by
    rintro (heq | heq)
    · exact hp heq
    · exact hp (hhead heq)
  rw [if_neg hp, if_neg hne, parent_eq h hm, findChildModule_eq h hm]
  by_cases hself : head = "self"
  · simp [hself]
  rw [if_neg hself, if_neg hself]
  by_cases hsuper : head = "super"
  · cases (t.node module).parent <;> simp [hsuper]
  · cases t.findChildModule module head <;> simp [hsuper]

theorem prefixRest_ok (h : Linked t.modules) {what : String} {segments : List String} {current : Nat}
    (hc : current < t.modules.length) (target : Nat) :
    prefixRest t what current segments = .ok target ↔
      t.walkModules current segments = .ok target := by
  induction segments generalizing current with
  | nil => rfl
  | cons segment rest ih =>
    rw [prefixRest, Tree.walkModules, findChildModule_eq h hc]
    cases hfind : t.findChildModule current segment with
    | none => simp
    | some child => exact ih (Tree.findChildModule_lt hfind)

/-- **The walks agree** on every path that does not start with the name of the package. -/
theorem walkModulePrefix_ok (h : Linked t.modules) (hm : module < t.modules.length) {use : UseItem}
    {what head second : String} {rest : List String}
    (hpath : use.path.segments.map (·.name) = head :: second :: rest)
    (hhead : head = t.packageName → head = "package") (target : Nat) :
    walkModulePrefix t module use.path what = .ok target ↔ t.useModule module use = .ok target := by
  have hp : ∀ current, prefixHead t module what head = .ok current ↔
      t.headModule module head = .ok current := prefixHead_ok h hm hhead
  rw [walkModulePrefix, Tree.useModule, hpath]
  simp only [bind_eq_ok, hp]
  refine exists_congr fun current => and_congr_right fun hu => ?_
  exact prefixRest_ok h (Tree.headModule_lt hm hu) target

end Alcy.Analyzer.Types
