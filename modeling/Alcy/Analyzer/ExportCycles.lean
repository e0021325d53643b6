import Alcy.Analyzer.Imports

/-! # What a reported re-export cycle means

The walk reports a cycle between modules, and a module depends on another through
its private uses too. A cycle between names, where an item is only available by
`pub use` of itself, is the narrower notion. -/
namespace Alcy.Analyzer.Resolve
open Alcy.Ast Alcy.Diag
open Relation (TransGen ReflTransGen)
open Tree (useMember useName)

/-- A `use` of `module`, public or private, reaches `target` for a member that is
not declared there. -/
def ModuleDep (t : Tree) (module target : Nat) : Prop :=
  ∃ (use : UseItem) (place : Nat), (t.node module).items[place]? = some (.use use) ∧
    t.useModule module use = .ok target ∧ t.isLocal target (useMember use) = false ∧
    target ≠ module

/-- A name of one module is a `pub use` of a name that its module re-exports in turn. -/
def ReexportDep (t : Tree) (a b : Nat × String) : Prop :=
  ∃ (use : UseItem) (place : Nat), (t.node a.1).items[place]? = some (.use use) ∧ use.isPub = true ∧
    useName use = a.2 ∧ t.useModule a.1 use = .ok b.1 ∧ useMember use = b.2 ∧
    t.isLocal b.1 b.2 = false

/-- Some item lookup depends on itself through public re-exports. -/
def ReexportCycle (t : Tree) : Prop := ∃ a, TransGen (ReexportDep t) a a

def ModuleCycle (t : Tree) : Prop := ∃ module, TransGen (ModuleDep t) module module

variable {t : Tree}

theorem edge_iff_moduleDep {module target : Nat} :
    Lib.Search.Edge t.targets module target ↔ ModuleDep t module target := by
  rw [Lib.Search.Edge, Tree.mem_targets]
  simp only [Tree.mem_uses, Tree.useTarget_eq_some, Prod.exists, ModuleDep]

theorem ModuleDep.lt {module target : Nat} (h : ModuleDep t module target) :
    module < t.modules.length := by
  obtain ⟨use, place, hi, _⟩ := h
  by_contra hm
  rw [(t.node_of_le (Nat.le_of_not_lt hm)).1] at hi
  cases hi

/-- **The report is exact for modules.** -/
theorem cycleReported_iff {s : ExportState} (h : resolveAll t = some s) :
    cycleReported s.bag = true ↔ ModuleCycle t := by
  have hedge : Lib.Search.Edge t.targets = ModuleDep t := by
    ext module target
    exact edge_iff_moduleDep
  have hfound := Lib.Search.visitAll_found_iff (resolveAll_search h) fun module target he =>
    List.mem_range.mpr (edge_iff_moduleDep.mp he).lt
  rwa [hedge] at hfound

/-- Along re-exported names the modules depend on each other or stay the same. -/
theorem ReexportDep.modules {a b : Nat × String} (h : ReflTransGen (ReexportDep t) a b) :
    ReflTransGen (ModuleDep t) a.1 b.1 := by
  induction h with
  | refl => exact .refl
  | @tail b c _ hbc ih =>
    by_cases hm : c.1 = b.1
    · exact hm ▸ ih
    · obtain ⟨use, place, hi, _, _, hmod, hmem, hloc⟩ := hbc
      exact ih.tail ⟨use, place, hi, hmod, hmem ▸ hloc, hm⟩

/-- A cycle between names that leaves its module is never missed. -/
theorem reexportCycle_reported {s : ExportState} (h : resolveAll t = some s)
    {a b : Nat × String} (hab : ReexportDep t a b) (hm : b.1 ≠ a.1)
    (hba : ReflTransGen (ReexportDep t) b a) : cycleReported s.bag = true := by
  obtain ⟨use, place, hi, _, _, hmod, hmem, hloc⟩ := hab
  exact (cycleReported_iff h).mpr
    ⟨a.1, .head' ⟨use, place, hi, hmod, hmem ▸ hloc, hm⟩ (ReexportDep.modules hba)⟩

def useItem (isPub : Bool) (segments : List String) : Item :=
  .use ⟨default, isPub, ⟨segments.map fun name => ⟨name, default⟩, default⟩, none⟩

def unitStruct (name : String) : Item := .struct ⟨default, true, ⟨name, default⟩, []⟩

/-- `mod a { pub use super::c::Bar; use super::b::Foo; }`,
`mod b { pub use super::c::Foo; use super::a::Bar; }`,
`mod c { pub struct Foo {} pub struct Bar {} }`. -/
def crossImports : Tree where
  packageName := "demo"
  modules :=
    let a := [useItem true ["super", "c", "Bar"], useItem false ["super", "b", "Foo"]]
    let b := [useItem true ["super", "c", "Foo"], useItem false ["super", "a", "Bar"]]
    let c := [unitStruct "Foo", unitStruct "Bar"]
    let decl (name : String) (items : List Item) : Item :=
      .mod default false ⟨name, default⟩ items true
    [⟨"", some 0, [decl "a" a, decl "b" b, decl "c" c], none, [1, 2, 3]⟩,
      ⟨"a", none, a, some 0, []⟩, ⟨"b", none, b, some 0, []⟩, ⟨"c", none, c, some 0, []⟩]
  nonempty := by decide
  children_lt := by simp
  parent_lt := by simp

theorem crossImports_no_reexportDep (a b : Nat × String) : ¬ ReexportDep crossImports a b := by
  rintro ⟨use, place, hi, hpub, _, hmod, hmem, hloc⟩
  have hall : ∀ m < crossImports.modules.length, ∀ u ∈ crossImports.uses m, u.1.isPub = true →
      (crossImports.useModule m u.1).toOption.all
        (fun target => crossImports.isLocal target (useMember u.1)) = true := by decide
  have hlt : a.1 < crossImports.modules.length := by
    by_contra hm
    rw [(crossImports.node_of_le (Nat.le_of_not_lt hm)).1] at hi
    cases hi
  have hlocal := hall a.1 hlt (use, place) ((Tree.mem_uses _ _).mpr hi) hpub
  simp [hmod, hmem, hloc, Except.toOption] at hlocal

end Alcy.Analyzer.Resolve
