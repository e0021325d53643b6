import Alcy.Analyzer.Walkers
import Alcy.Lib.Worklist
import Alcy.Path.Canonical

/-! # The module tree

`build_tree` of `src/analyzer/resolve.cc`. The files of a package have been loaded and parsed; a
`mod` item leads to one of them by its path, or holds the items of its module itself. The worklist
is a stack: a module is taken as soon as the modules behind it are done.
-/
namespace Alcy.Analyzer.BuildTree
open Alcy.Diag
open Alcy.Ast (Item)
open Alcy.Analyzer.Resolve (ModuleNode)
open Alcy.Analyzer.Types (addChild childPath Built)

def kAnalyzerMissingModuleFile : Nat := 4200
def kAnalyzerDuplicateModule : Nat := 4201
def kAnalyzerUnreachableFile : Nat := 4204
def kAnalyzerInvalidPath : Nat := 4205

/-- `FileData`; `kNoModule` is `none`. -/
structure FileData where
  id : Nat
  dir : Path
  path : Path
  items : List Item
  module : Option Nat

/-- What `build_tree` works on; `modDirs` runs beside `modules`. -/
structure BuildState where
  files : List FileData
  modules : List ModuleNode
  modDirs : List Path
  bag : DiagBag

namespace BuildState

def node (st : BuildState) (module : Nat) : ModuleNode := st.modules.getD module default

def dir (st : BuildState) (module : Nat) : Path := st.modDirs.getD module (.ofText [])

def report (st : BuildState) (code : Nat) (span : Span) (message : String) : BuildState :=
  { st with bag := emit st.bag .error code span message }

/-- `add_module` under a parent that lists it. -/
def add (st : BuildState) (module : Nat) (name : String) (file : Option Nat) (items : List Item)
    (dir : Path) : BuildState :=
  { st with
    modules := addChild st.modules module name file items
    modDirs := st.modDirs ++ [dir] }

end BuildState

/-! ## Files -/

/-- The entries of `run`; a path with a NUL byte is reported and left out. -/
def loadFiles (name : Nat → Path.Text) (items : Nat → List Item) :
    List Nat → DiagBag → List FileData × DiagBag
  | [], bag => ([], bag)
  | id :: ids, bag =>
    match Path.fromNative (name id) with
    | none => loadFiles name items ids
        (bag ++ [⟨.error, kAnalyzerInvalidPath, "invalid source path for file", none⟩])
    | some path =>
      let rest := loadFiles name items ids bag
      (⟨id, path.parent, path, items id, none⟩ :: rest.1, rest.2)

/-- `find_file_by_path` -/
def findFileByPath (files : List FileData) (path : Path) : Option Nat :=
  files.findIdx? fun file => file.path = path

/-- The first candidate under the directory, else the second. -/
def findModuleFile (files : List FileData) (dir : Path) (name : String) : Option Nat :=
  match findFileByPath files (dir.join (name.toList ++ ".al".toList)) with
  | some index => some index
  | none => findFileByPath files (dir.join (name.toList ++ "/mod.al".toList))

/-- The entry gets the module that uses it last. -/
def setModule (files : List FileData) (index module : Nat) : List FileData :=
  files.modify index fun file => { file with module := some module }

/-! ## Building -/

/-- One `mod` item; the new module goes to the end of the worklist. -/
def buildMod (module : Nat) (span : Span) (name : String) (items : List Item) (isInline : Bool)
    (st : BuildState) (worklist : List Nat) : BuildState × List Nat :=
  let child := st.modules.length
  if isInline then (st.add module name none items (st.dir module), child :: worklist)
  else
    match findModuleFile st.files (st.dir module) name with
    | none => (st.report kAnalyzerMissingModuleFile span ("module '" ++ name ++ "' has no file"),
        worklist)
    | some index =>
      match st.files[index]? with
      | none => (st, worklist)
      | some file =>
        ({ st.add module name (some file.id) file.items ((st.dir module).join name.toList) with
            files := setModule st.files index child }, child :: worklist)

/-- The loop of `build_children`, with the names it has seen. -/
def buildItems (module : Nat) : List Item → List String → BuildState → List Nat →
    BuildState × List Nat
  | [], _, st, worklist => (st, worklist)
  | .mod span _ name items isInline :: rest, declared, st, worklist =>
    if name.name ∈ declared then
      buildItems module rest declared (st.report kAnalyzerDuplicateModule span
        ("module '" ++ name.name ++ "' is declared more than once")) worklist
    else
      let next := buildMod module span name.name items isInline st worklist
      buildItems module rest (declared ++ [name.name]) next.1 next.2
  | _ :: rest, declared, st, worklist => buildItems module rest declared st worklist

/-- `build_children` -/
def buildChildren (module : Nat) (st : BuildState) (worklist : List Nat) :
    BuildState × List Nat :=
  buildItems module (st.node module).items [] st worklist

/-- The place of the root's entry: the last one with its id. -/
def rootFile (files : List FileData) (root : Nat) : Option Nat :=
  ((List.range files.length).filter fun i => (files[i]?).any (·.id = root)).getLast?

/-- The state before the loop. -/
def rooted (files : List FileData) (root index : Nat) (file : FileData) (bag : DiagBag) :
    BuildState :=
  ⟨setModule files index 0, [⟨"", some root, file.items, none, []⟩], [file.dir], bag⟩

/-- The files that no module uses. -/
def unreachableFiles (files : List FileData) : DiagBag :=
  (files.filter (·.module.isNone)).map fun file => ⟨.warning, kAnalyzerUnreachableFile,
    "source file '" ++ String.ofList file.path.value ++ "' is not reachable from the package root",
    none⟩

/-- `build_tree`, for a root among the files. -/
def buildTree (fuel : Nat) (files : List FileData) (root : Nat) (bag : DiagBag) :
    Option BuildState := do
  let index ← rootFile files root
  let file ← files[index]?
  let st ← Lib.Worklist.drain buildChildren fuel (rooted files root index file bag) [0]
  return { st with bag := st.bag ++ unreachableFiles st.files }

/-! ## States that grow -/

/-- What `run` put into an entry. -/
def FileData.loaded (file : FileData) : Nat × Path × Path × List Item :=
  (file.id, file.dir, file.path, file.items)

/-- Files stay as they were loaded, and modules keep their items and directories. -/
structure Grows (st st' : BuildState) : Prop where
  files : st'.files.map (·.loaded) = st.files.map (·.loaded)
  items : st.modules.map (·.items) <+: st'.modules.map (·.items)
  dirs : st.modDirs <+: st'.modDirs
  paired : st.modDirs.length = st.modules.length → st'.modDirs.length = st'.modules.length

theorem Grows.refl (st : BuildState) : Grows st st :=
  ⟨rfl, List.prefix_rfl, List.prefix_rfl, id⟩

theorem Grows.trans {st st' st'' : BuildState} (h : Grows st st') (h' : Grows st' st'') :
    Grows st st'' :=
  ⟨h'.files.trans h.files, h.items.trans h'.items, h.dirs.trans h'.dirs, h'.paired ∘ h.paired⟩

section
variable {st st' : BuildState} {module child : Nat} {name : String} {file : Option Nat}
  {items : List Item} {dir : Path}

theorem Grows.length_le (h : Grows st st') : st.modules.length ≤ st'.modules.length := by
  simpa using h.items.length_le

theorem Grows.node_items (h : Grows st st') (hm : module < st.modules.length) :
    (st'.node module).items = (st.node module).items := by
  have hm' := Nat.lt_of_lt_of_le hm h.length_le
  have hget := h.items.getElem (i := module) (by simpa using hm)
  simp only [List.getElem_map] at hget
  simp only [BuildState.node, List.getD_eq_getElem _ _ hm, List.getD_eq_getElem _ _ hm', hget]

theorem Grows.dir_eq (h : Grows st st') (hm : module < st.modDirs.length) :
    st'.dir module = st.dir module := by
  have hm' := Nat.lt_of_lt_of_le hm h.dirs.length_le
  simp only [BuildState.dir, List.getD_eq_getElem _ _ hm, List.getD_eq_getElem _ _ hm',
    h.dirs.getElem hm]

theorem setModule_loaded (files : List FileData) (index module : Nat) :
    (setModule files index module).map (·.loaded) = files.map (·.loaded) := by
  refine List.ext_getElem? fun i => ?_
  simp only [setModule, List.getElem?_map, List.getElem?_modify]
  cases files[i]? with
  | none => rfl
  | some file =>
    by_cases hi : index = i <;> simp [hi, FileData.loaded]

theorem grows_add : Grows st (st.add module name file items dir) := by
  refine ⟨rfl, ?_, List.prefix_append _ _, fun h => ?_⟩
  · refine ⟨[items], List.ext_getElem? fun i => ?_⟩
    simp only [BuildState.add, addChild, List.map_append, List.map_cons, List.map_nil,
      List.getElem?_append, List.length_map, List.length_modify, List.getElem?_map,
      List.getElem?_modify]
    split
    · cases st.modules[i]? with
      | none => rfl
      | some node => by_cases hi : module = i <;> simp [hi]
    · rfl
  · simp [BuildState.add, h]

theorem grows_setModule {files : List FileData} (h : Grows st st')
    (hfiles : files.map (·.loaded) = st'.files.map (·.loaded)) : Grows st { st' with files } :=
  ⟨hfiles.trans h.files, h.items, h.dirs, h.paired⟩

end

theorem node_add (st : BuildState) (module : Nat) (name : String) (file : Option Nat)
    (items : List Item) (dir : Path) : (st.add module name file items dir).node st.modules.length =
      ⟨childPath (st.node module).path name, file, items, some module, []⟩ :=
  Types.getD_addChild_self

theorem dir_add {st : BuildState} (hpaired : st.modDirs.length = st.modules.length) (module : Nat)
    (name : String) (file : Option Nat) (items : List Item) (dir : Path) :
    (st.add module name file items dir).dir st.modules.length = dir := by
  simp [BuildState.add, BuildState.dir, ← hpaired]

/-! ## What one item does -/

theorem findFileByPath_some {files : List FileData} {path : Path} {index : Nat}
    (h : findFileByPath files path = some index) :
    ∃ file, files[index]? = some file ∧ file.path = path := by
  obtain ⟨hlt, hpath, -⟩ := List.findIdx?_eq_some_iff_getElem.1 h
  exact ⟨files[index], List.getElem?_eq_getElem hlt, of_decide_eq_true hpath⟩

/-- A file that is found is one of the two candidates. -/
theorem findModuleFile_some {files : List FileData} {dir : Path} {name : String} {index : Nat}
    (h : findModuleFile files dir name = some index) : ∃ file, files[index]? = some file ∧
      (file.path = dir.join (name.toList ++ ".al".toList) ∨
        file.path = dir.join (name.toList ++ "/mod.al".toList)) := by
  unfold findModuleFile at h
  split at h
  · next hfirst =>
    cases h
    obtain ⟨file, hfile, hpath⟩ := findFileByPath_some hfirst
    exact ⟨file, hfile, .inl hpath⟩
  · obtain ⟨file, hfile, hpath⟩ := findFileByPath_some h
    exact ⟨file, hfile, .inr hpath⟩

/-- What a `mod` item makes of the state, with the new entry of the worklist. -/
inductive BuildsMod (module : Nat) (name : String) (items : List Item) (isInline : Bool)
    (st : BuildState) : BuildState → List Nat → Prop
  | inlined (h : isInline = true) : BuildsMod module name items isInline st
      (st.add module name none items (st.dir module)) [st.modules.length]
  | missing (h : isInline = false) (hfile : findModuleFile st.files (st.dir module) name = none)
      (bag : DiagBag) : BuildsMod module name items isInline st { st with bag } []
  | found (h : isInline = false) (index : Nat) (file : FileData)
      (hfile : findModuleFile st.files (st.dir module) name = some index)
      (hget : st.files[index]? = some file) : BuildsMod module name items isInline st
        { st.add module name (some file.id) file.items ((st.dir module).join name.toList) with
          files := setModule st.files index st.modules.length } [st.modules.length]

theorem buildMod_builds (module : Nat) (span : Span) (name : String) (items : List Item)
    (isInline : Bool) (st : BuildState) (worklist : List Nat) :
    ∃ new, (buildMod module span name items isInline st worklist).2 = new ++ worklist ∧
      BuildsMod module name items isInline st
        (buildMod module span name items isInline st worklist).1 new := by
  unfold buildMod
  cases isInline with
  | true => exact ⟨_, rfl, .inlined rfl⟩
  | false =>
    simp only [Bool.false_eq_true, if_false]
    cases hfile : findModuleFile st.files (st.dir module) name with
    | none => exact ⟨[], rfl, .missing rfl hfile _⟩
    | some index =>
      obtain ⟨file, hget, -⟩ := findModuleFile_some hfile
      simp only [hget]
      exact ⟨_, rfl, .found rfl index file hfile hget⟩

/-- The item declares no module. -/
def isMod : Item → Bool
  | .mod .. => true
  | _ => false

/-- **The rule of the loop** of `build_children`: what every item keeps, with the items that are
left and the names that were seen. -/
theorem buildItems_invariant {module : Nat}
    {I : List Item → List String → BuildState → List Nat → Prop}
    (hother : ∀ item rest declared st worklist, isMod item = false →
      I (item :: rest) declared st worklist → I rest declared st worklist)
    (hagain : ∀ span isPub (name : Ast.Ident) items isInline rest declared st worklist bag,
      name.name ∈ declared →
      I (.mod span isPub name items isInline :: rest) declared st worklist →
        I rest declared { st with bag } worklist)
    (hnew : ∀ span isPub (name : Ast.Ident) items isInline rest declared st worklist st' new,
      name.name ∉ declared →
      I (.mod span isPub name items isInline :: rest) declared st worklist →
      BuildsMod module name.name items isInline st st' new →
        I rest (declared ++ [name.name]) st' (new ++ worklist))
    {items : List Item} {declared : List String} {st : BuildState} {worklist : List Nat}
    (h : I items declared st worklist) :
    ∃ declared', I [] declared' (buildItems module items declared st worklist).1
      (buildItems module items declared st worklist).2 := by
  induction items generalizing declared st worklist with
  | nil => exact ⟨declared, h⟩
  | cons item rest ih =>
    cases item with
    | mod span isPub name items isInline =>
      rw [buildItems]
      split
      · next hseen => exact ih (hagain _ _ _ _ _ _ _ _ _ _ hseen h)
      · next hseen =>
        obtain ⟨new, hwork, hbuilds⟩ :=
          buildMod_builds module span name.name items isInline st worklist
        simp only [hwork]
        exact ih (hnew _ _ _ _ _ _ _ _ _ _ _ hseen h hbuilds)
    | _ => exact ih (hother _ _ _ _ _ rfl h)

theorem BuildsMod.grows {module : Nat} {name : String} {items : List Item} {isInline : Bool}
    {st st' : BuildState} {new : List Nat} (h : BuildsMod module name items isInline st st' new) :
    Grows st st' := by
  cases h with
  | inlined => exact grows_add
  | missing => exact ⟨rfl, List.prefix_rfl, List.prefix_rfl, id⟩
  | found => exact grows_setModule grows_add (setModule_loaded _ _ _)

/-- **The tree is one of those that the walks are about**: every module is added under one that is
there. -/
theorem buildChildren_built {module : Nat} {st : BuildState} {worklist : List Nat}
    (h : Built st.modules) (hwork : ∀ m ∈ module :: worklist, m < st.modules.length) :
    Built (buildChildren module st worklist).1.modules ∧
      ∀ m ∈ (buildChildren module st worklist).2,
        m < (buildChildren module st worklist).1.modules.length := by
  obtain ⟨_, hbuilt, -, hlt⟩ := @buildItems_invariant module
    (fun _ _ st worklist => Built st.modules ∧ module < st.modules.length ∧
      ∀ m ∈ worklist, m < st.modules.length)
    (fun _ _ _ _ _ _ h => h) (fun _ _ _ _ _ _ _ _ _ _ _ h => h)
    (fun _ _ name items _ _ _ st worklist st' new _ h hbuilds => by
      obtain ⟨hbuilt, hhere, hlt⟩ := h
      have hadd (file : Option Nat) (items : List Item) :
          Built (addChild st.modules module name.name file items) ∧
          module < (addChild st.modules module name.name file items).length ∧
          ∀ m ∈ [st.modules.length] ++ worklist,
            m < (addChild st.modules module name.name file items).length := by
        rw [Types.length_addChild]
        refine ⟨.child module name.name file items hbuilt hhere, Nat.lt_succ_of_lt hhere, ?_⟩
        refine List.forall_mem_cons.2 ⟨Nat.lt_succ_self _, fun m hm => ?_⟩
        exact Nat.lt_succ_of_lt (hlt m hm)
      cases hbuilds with
      | inlined => exact hadd none items
      | missing => exact ⟨hbuilt, hhere, hlt⟩
      | found _ _ file => exact hadd (some file.id) file.items)
    (st.node module).items [] st worklist
    ⟨h, hwork module (List.mem_cons_self ..), fun m hm => hwork m (.tail _ hm)⟩
  exact ⟨hbuilt, hlt⟩

theorem buildTree_built {fuel root : Nat} {files : List FileData} {bag : DiagBag} {st : BuildState}
    (h : buildTree fuel files root bag = some st) : Built st.modules := by
  obtain ⟨index, -, h⟩ := Option.bind_eq_some_iff.1 h
  obtain ⟨file, -, h⟩ := Option.bind_eq_some_iff.1 h
  obtain ⟨done, hdrain, h⟩ := Option.bind_eq_some_iff.1 h
  cases h
  let holds (st : BuildState) (work : List Nat) : Prop :=
    Built st.modules ∧ ∀ m ∈ work, m < st.modules.length
  have hround (st : BuildState) (module : Nat) (rest : List Nat) (h : holds st (module :: rest)) :
      holds (buildChildren module st rest).1 (buildChildren module st rest).2 :=
    buildChildren_built h.1 h.2
  have hstart : holds (rooted files root index file bag) [0] :=
    ⟨.root (some root) file.items, List.forall_mem_singleton.2 Nat.one_pos⟩
  exact (Lib.Worklist.drain_invariant hround hdrain hstart).1

/-! ## The loop ends -/

mutual

/-- The names that a `mod` item declares, with those in its own items. -/
def itemNames : Item → List String
  | .mod _ _ name items _ => name.name :: declaredNames items
  | _ => []

/-- The names of all `mod` items, at any depth of inline modules. -/
def declaredNames : List Item → List String
  | [] => []
  | item :: rest => itemNames item ++ declaredNames rest

end

theorem mem_declaredNames {items : List Item} {item : Item} (h : item ∈ items) {name : String}
    (hname : name ∈ itemNames item) : name ∈ declaredNames items := by
  induction items with
  | nil => cases h
  | cons first rest ih =>
    rw [declaredNames]
    rcases List.mem_cons.1 h with rfl | h
    · exact List.mem_append_left _ hname
    · exact List.mem_append_right _ (ih h)

/-- The files bound the depth of directories, and every module is named by an identifier. -/
structure Bounded (limit : Nat) (files : List FileData) : Prop where
  depth : ∀ file ∈ files, file.path.stack.length ≤ limit
  names : ∀ file ∈ files, ∀ name ∈ declaredNames file.items, Path.IsName name.toList

/-- The rank of a module: how much deeper than its directory a file may lie, and the size of its
items. -/
structure Ranked (limit : Nat) (st : BuildState) (module : Nat) (rank : Nat × Nat) : Prop where
  files : Bounded limit st.files
  paired : st.modDirs.length = st.modules.length
  here : module < st.modules.length
  names : ∀ name ∈ declaredNames (st.node module).items, Path.IsName name.toList
  eq : rank = (limit - (st.dir module).stack.length, sizeOf (st.node module).items)

theorem Bounded.of_loaded {limit : Nat} {files files' : List FileData} (h : Bounded limit files)
    (heq : files'.map (·.loaded) = files.map (·.loaded)) : Bounded limit files' := by
  have hmem {file : FileData} (hfile : file ∈ files') :
      ∃ old ∈ files, old.loaded = file.loaded := by
    have := List.mem_map_of_mem (f := (·.loaded)) hfile
    rw [heq] at this
    exact List.mem_map.1 this
  constructor
  · intro file hfile
    obtain ⟨old, hold, hloaded⟩ := hmem hfile
    simp only [FileData.loaded, Prod.mk.injEq] at hloaded
    exact hloaded.2.2.1 ▸ h.depth old hold
  · intro file hfile
    obtain ⟨old, hold, hloaded⟩ := hmem hfile
    simp only [FileData.loaded, Prod.mk.injEq] at hloaded
    exact hloaded.2.2.2 ▸ h.names old hold

theorem Ranked.grows {limit module : Nat} {st st' : BuildState} {rank : Nat × Nat}
    (h : Ranked limit st module rank) (hg : Grows st st') : Ranked limit st' module rank where
  files := h.files.of_loaded hg.files
  paired := hg.paired h.paired
  here := Nat.lt_of_lt_of_le h.here hg.length_le
  names := by
    rw [hg.node_items h.here]
    exact h.names
  eq := by
    rw [hg.node_items h.here, hg.dir_eq (h.paired ▸ h.here)]
    exact h.eq

/-- The first candidate is a name of its own. -/
theorem isName_al {name : String} (h : Path.IsName name.toList) :
    Path.IsName (name.toList ++ ".al".toList) := by
  have hlength : 3 < (name.toList ++ ".al".toList).length := by
    have := List.length_pos_iff.2 h.1
    simp only [List.length_append]
    show 3 < name.toList.length + 3
    omega
  refine ⟨?_, ?_, ?_, ?_⟩
  · intro heq
    rw [heq] at hlength
    exact absurd hlength (by decide)
  · intro heq
    rw [heq] at hlength
    exact absurd hlength (by decide)
  · intro heq
    rw [heq] at hlength
    exact absurd hlength (by decide)
  · exact fun hmem => (List.mem_append.1 hmem).elim h.2.2.2 (by decide)

theorem isName_mod : Path.IsName "mod.al".toList := by
  unfold Path.IsName
  decide

/-- The second one lies in the directory of the module. -/
theorem join_mod (dir : Path) (name : String) : dir.join (name.toList ++ "/mod.al".toList) =
    (dir.join name.toList).join "mod.al".toList :=
  (Path.join_join dir name.toList "mod.al".toList).symm

/-- A directory with a file of a module under it is not at the limit. -/
theorem Bounded.join {limit : Nat} {files : List FileData} (h : Bounded limit files) {dir : Path}
    {name : String} {index : Nat} (hname : Path.IsName name.toList)
    (hfile : findModuleFile files dir name = some index) : dir.stack.length < limit := by
  obtain ⟨file, hget, hpath⟩ := findModuleFile_some hfile
  have hdepth := h.depth file (List.mem_of_getElem? hget)
  rcases hpath with hpath | hpath
  · rw [hpath, Path.stack_join (isName_al hname), List.length_cons] at hdepth
    omega
  · rw [hpath, join_mod, Path.stack_join isName_mod, Path.stack_join hname, List.length_cons,
      List.length_cons] at hdepth
    omega

theorem sizeOf_mod {items sub : List Item} {span : Span} {isPub : Bool} {name : Ast.Ident}
    {isInline : Bool} (h : .mod span isPub name sub isInline ∈ items) :
    sizeOf sub < sizeOf items := by
  have hitem := List.sizeOf_lt_of_mem h
  have hsub : sizeOf sub < sizeOf (Item.mod span isPub name sub isInline) := by
    simp only [Item.mod.sizeOf_spec]
    omega
  exact Nat.lt_trans hsub hitem

/-- **A new module has a lower rank**: an inline module has fewer items, a file module lies deeper,
and no deeper than a file. -/
theorem BuildsMod.lower {limit module : Nat} {st st₀ st' : BuildState} {rank : Nat × Nat}
    (hrank : Ranked limit st₀ module rank) (hg : Grows st₀ st) {sub : List Item}
    {name : Ast.Ident} {span : Span} {isPub isInline : Bool} {new : List Nat}
    (hitem : .mod span isPub name sub isInline ∈ (st₀.node module).items)
    (h : BuildsMod module name.name sub isInline st st' new) : ∀ child ∈ new, ∃ rank',
      Prod.Lex (· < ·) (· < ·) rank' rank ∧ Ranked limit st' child rank' := by
  have hrank' := hrank.grows hg
  have hname := hrank.names _ (mem_declaredNames hitem (by rw [itemNames]; exact .head _))
  have hgrows := h.grows
  have hpaired := hgrows.paired hrank'.paired
  rw [hrank'.eq]
  cases h with
  | inlined =>
    intro child hchild
    obtain rfl := List.mem_singleton.1 hchild
    have hitems := congrArg ModuleNode.items
      (node_add st module name.name none sub (st.dir module))
    refine ⟨_, ?_, ⟨hrank'.files.of_loaded hgrows.files, hpaired, ?_, ?_, rfl⟩⟩
    · rw [dir_add hrank'.paired module name.name none sub, hitems]
      refine .right _ ?_
      rw [hg.node_items hrank.here]
      exact sizeOf_mod hitem
    · simp [BuildState.add]
    · rw [hitems]
      intro inner hinner
      refine hrank.names inner (mem_declaredNames hitem ?_)
      rw [itemNames]
      exact .tail _ hinner
  | missing => exact fun child hchild => by cases hchild
  | found _ index file hfile hget =>
    intro child hchild
    obtain rfl := List.mem_singleton.1 hchild
    have hdepth := hrank'.files.join hname hfile
    have hitems := congrArg ModuleNode.items (node_add st module name.name (some file.id)
      file.items ((st.dir module).join name.name.toList))
    have hdir := dir_add hrank'.paired module name.name (some file.id) file.items
      ((st.dir module).join name.name.toList)
    refine ⟨_, ?_, ⟨hrank'.files.of_loaded hgrows.files, hpaired, ?_, ?_, rfl⟩⟩
    · refine .left _ _ ?_
      show limit - ((st.add module name.name (some file.id) file.items
        ((st.dir module).join name.name.toList)).dir st.modules.length).stack.length < _
      rw [hdir, Path.stack_join hname, List.length_cons]
      omega
    · simp [BuildState.add]
    · show ∀ inner ∈ declaredNames ((st.add module name.name (some file.id) file.items
        ((st.dir module).join name.name.toList)).node st.modules.length).items, _
      rw [hitems]
      exact hrank'.files.names file (List.mem_of_getElem? hget)

theorem buildChildren_descends (limit : Nat) : Lib.Worklist.Descends buildChildren
    (Prod.Lex (· < ·) (· < ·)) (Ranked limit) Grows where
  wf := (Prod.lex Nat.lt_wfRel Nat.lt_wfRel).wf
  refl := .refl
  trans _ _ _ := .trans
  keeps _ _ _ _ hg h := h.grows hg
  round st module rank rest hrank := by
    -- The items that are left are the module's, and every entry so far has a lower rank.
    have hstart : (∀ item ∈ (st.node module).items, item ∈ (st.node module).items) ∧ Grows st st ∧
        ∃ new : List Nat, rest = new ++ rest ∧ ∀ child ∈ new, ∃ rank',
          Prod.Lex (· < ·) (· < ·) rank' rank ∧ Ranked limit st child rank' :=
      ⟨fun _ h => h, .refl st, [], rfl, nofun⟩
    obtain ⟨_, -, hgrows, new, hwork, hlower⟩ := @buildItems_invariant module
      (fun left _ st' worklist => (∀ item ∈ left, item ∈ (st.node module).items) ∧ Grows st st' ∧
        ∃ new, worklist = new ++ rest ∧ ∀ child ∈ new, ∃ rank',
          Prod.Lex (· < ·) (· < ·) rank' rank ∧ Ranked limit st' child rank')
      (fun item left _ st' worklist _ h => ⟨fun i hi => h.1 i (.tail _ hi), h.2⟩)
      (fun span isPub name items isInline left declared st' worklist bag _ h => by
        obtain ⟨hitems, hg, new, hwork, hlower⟩ := h
        have hbag : Grows st' { st' with bag } := ⟨rfl, List.prefix_rfl, List.prefix_rfl, id⟩
        refine ⟨fun i hi => hitems i (.tail _ hi), hg.trans hbag, new, hwork, fun child hc => ?_⟩
        obtain ⟨rank', hlt, hranked⟩ := hlower child hc
        exact ⟨rank', hlt, hranked.grows hbag⟩)
      (fun span isPub name items isInline left declared st' worklist st'' added _ h hbuilds => by
        obtain ⟨hitems, hg, new, hwork, hlower⟩ := h
        refine ⟨fun i hi => hitems i (.tail _ hi), hg.trans hbuilds.grows, added ++ new, ?_, ?_⟩
        · rw [hwork, List.append_assoc]
        · intro child hc
          rcases List.mem_append.1 hc with hc | hc
          · exact BuildsMod.lower hrank hg (hitems _ (List.mem_cons_self ..)) hbuilds child hc
          · obtain ⟨rank', hlt, hranked⟩ := hlower child hc
            exact ⟨rank', hlt, hranked.grows hbuilds.grows⟩)
      (st.node module).items [] st rest hstart
    exact ⟨new, hwork, hgrows, hlower⟩

theorem rootFile_some {files : List FileData} {root index : Nat}
    (h : rootFile files root = some index) :
    ∃ file, files[index]? = some file ∧ file.id = root := by
  have hmem := List.mem_of_getLast? h
  rw [List.mem_filter, Option.any_eq_true] at hmem
  obtain ⟨-, file, hget, hid⟩ := hmem
  exact ⟨file, hget, of_decide_eq_true hid⟩

theorem rootFile_isSome {files : List FileData} {root : Nat}
    (h : ∃ file ∈ files, file.id = root) : ∃ index, rootFile files root = some index := by
  obtain ⟨file, hfile, hid⟩ := h
  obtain ⟨i, hi⟩ := List.mem_iff_getElem?.1 hfile
  have hlt := (List.getElem?_eq_some_iff.1 hi).1
  have hany : (files[i]?).any (·.id = root) = true := by
    rw [hi]
    exact decide_eq_true hid
  have hmem : i ∈ (List.range files.length).filter fun i => (files[i]?).any (·.id = root) :=
    List.mem_filter.2 ⟨List.mem_range.2 hlt, hany⟩
  exact Option.isSome_iff_exists.1 (List.getLast?_isSome.2 (List.ne_nil_of_mem hmem))

/-- Some depth is not exceeded by any file. -/
theorem exists_limit (files : List FileData) :
    ∃ limit, ∀ file ∈ files, file.path.stack.length ≤ limit := by
  induction files with
  | nil => exact ⟨0, nofun⟩
  | cons file files ih =>
    obtain ⟨limit, hlimit⟩ := ih
    refine ⟨max file.path.stack.length limit, List.forall_mem_cons.2 ⟨Nat.le_max_left .., ?_⟩⟩
    exact fun other hother => Nat.le_trans (hlimit other hother) (Nat.le_max_right ..)

theorem rooted_ends {files : List FileData} {index : Nat} {file : FileData}
    (hget : files[index]? = some file)
    (hnames : ∀ file ∈ files, ∀ name ∈ declaredNames file.items, Path.IsName name.toList)
    (root : Nat) (bag : DiagBag) :
    Lib.Worklist.Ends buildChildren (rooted files root index file bag) [0] := by
  obtain ⟨limit, hlimit⟩ := exists_limit files
  have hranked : Ranked limit (rooted files root index file bag) 0
      (limit - file.dir.stack.length, sizeOf file.items) := by
    refine ⟨?_, rfl, Nat.one_pos, hnames file (List.mem_of_getElem? hget), rfl⟩
    exact Bounded.of_loaded ⟨hlimit, hnames⟩ (setModule_loaded files index 0)
  exact (buildChildren_descends limit).ends (List.forall_mem_singleton.2 ⟨_, hranked⟩)

/-- **Building the module tree ends**: files that are attached to several modules are expanded
again, but only deeper, and no deeper than a path of some file. -/
theorem buildTree_ends {files : List FileData} {root : Nat} (hroot : ∃ file ∈ files, file.id = root)
    (hnames : ∀ file ∈ files, ∀ name ∈ declaredNames file.items, Path.IsName name.toList)
    (bag : DiagBag) : ∃ fuel st, buildTree fuel files root bag = some st := by
  obtain ⟨index, hindex⟩ := rootFile_isSome hroot
  obtain ⟨file, hget, -⟩ := rootFile_some hindex
  obtain ⟨fuel, st, hdrain⟩ := rooted_ends hget hnames root bag
  refine ⟨fuel, { st with bag := st.bag ++ unreachableFiles st.files }, ?_⟩
  simp only [buildTree, hindex, hget, hdrain, Option.bind_eq_bind, Option.bind_some]
  rfl

/-- A file module `mod name;` -/
def fileMod (name : String) : Item := .mod default false ⟨name, default⟩ [] false

def inlineMod (name : String) (items : List Item) : Item :=
  .mod default false ⟨name, default⟩ items true

/-- The files of a package under `/p`, with their items. -/
def filesOf (sources : List (String × List Item)) : List FileData :=
  (loadFiles (fun id => ("/p/" ++ (sources.getD id default).1).toList)
    (fun id => (sources.getD id default).2) (List.range sources.length) []).1

/-- `main.al` and `a.al` declare `a`, and `a.al` again a module of its own name. -/
theorem buildTree_nested : ∃ fuel st, buildTree fuel
    (filesOf [("main.al", [fileMod "a"]), ("a.al", [fileMod "a", inlineMod "b" [fileMod "a"]]),
      ("a/a/mod.al", [])]) 0 [] = some st := by
  refine buildTree_ends ?_ ?_ []
  · decide
  · unfold Path.IsName
    decide

end Alcy.Analyzer.BuildTree
