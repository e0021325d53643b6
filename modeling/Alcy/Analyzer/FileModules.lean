import Alcy.Analyzer.BuildTree

/-! # Files and modules

Every file should back one module, and lie where its module says. A file module is looked up under
the directory that `build_tree` keeps for its parent. An inline module takes over the directory of
its parent, where a file module makes one of its own, so the file modules of inline modules are
looked up beside those of the file. The places of a package say which modules there will be, without
the worklist.
-/
namespace Alcy.Analyzer.BuildTree
open Alcy.Diag
open Alcy.Ast (Item)
open Alcy.Analyzer.Resolve (ModuleNode)
open Alcy.Analyzer.Types (addChild childPath)

/-! ## Places -/

/-- The first `mod` item of the name: its items, and whether they stand inline. -/
def firstMod (name : String) : List Item → Option (List Item × Bool)
  | [] => none
  | .mod _ _ ident items isInline :: rest =>
    if ident.name = name then some (items, isInline) else firstMod name rest
  | _ :: rest => firstMod name rest

/-- A module that the `mod` items lead to: its own directory, the one in which its file modules are
looked up, its items, and whether it stands inside an inline module. -/
inductive Place (files : List FileData) (root : FileData) : Path → Path → List Item → Bool → Prop
  | root : Place files root root.dir root.dir root.items false
  | inline {own dir : Path} {items sub : List Item} {inside : Bool} {name : String}
      (h : Place files root own dir items inside) (hmod : firstMod name items = some (sub, true)) :
      Place files root (own.join name.toList) dir sub true
  | file {own dir : Path} {items sub : List Item} {inside : Bool} {name : String} {index : Nat}
      {file : FileData} (h : Place files root own dir items inside)
      (hmod : firstMod name items = some (sub, false))
      (hfile : findModuleFile files dir name = some index) (hget : files[index]? = some file) :
      Place files root (own.join name.toList) (dir.join name.toList) file.items inside

/-- No file module leads to the file of the root, and none inside an inline module has a file, be it
where the file is looked up or in the module's own directory. -/
def FilesApart (files : List FileData) (index : Nat) (root : FileData) : Prop :=
  ∀ own dir items inside name sub, Place files root own dir items inside →
    firstMod name items = some (sub, false) → findModuleFile files dir name ≠ some index ∧
      (inside = true → findModuleFile files dir name = none ∧ findModuleFile files own name = none)

/-! ## What should hold of the tree -/

/-- The module is the one that its parent declares under the name. -/
structure ChildNamed (st : BuildState) (child parent : Nat) (name : String) : Prop where
  here : child < st.modules.length
  under : (st.node child).parent = some parent
  path : (st.node child).path = childPath (st.node parent).path name

/-- The own directory of a module: that of its parent, with its name. -/
inductive OwnDir (st : BuildState) (dir : Path) : Nat → Path → Prop
  | root : OwnDir st dir 0 dir
  | child {child parent : Nat} {name : String} {own : Path} (h : OwnDir st dir parent own)
      (hchild : ChildNamed st child parent name) : OwnDir st dir child (own.join name.toList)

/-- The file that a directory has for a module. -/
def fileUnder (files : List FileData) (dir : Path) (name : String) : Option Nat :=
  (findModuleFile files dir name).bind fun index => files[index]?.map (·.id)

/-- Every file backs one module, its entry says which, and a declared file module has the file that
its parent's own directory has for it. -/
structure OneFileOneModule (dir : Path) (st : BuildState) : Prop where
  unique : ∀ m < st.modules.length, ∀ m' < st.modules.length, ∀ id,
    (st.node m).file = some id → (st.node m').file = some id → m = m'
  recorded : ∀ file ∈ st.files, ∀ m, file.module = some m ↔
    m < st.modules.length ∧ (st.node m).file = some file.id
  inside : ∀ m own name sub, m < st.modules.length → OwnDir st dir m own →
    firstMod name (st.node m).items = some (sub, false) → ∀ id,
      (∃ child, ChildNamed st child m name ∧ (st.node child).file = some id) ↔
        fileUnder st.files own name = some id

/-! ## Paths of modules -/

theorem childPath_inj {path name name' : String} (h : childPath path name = childPath path name') :
    name = name' := by
  unfold childPath at h
  split at h
  · exact h
  · have hchars := congrArg String.toList h
    simp only [String.toList_append] at hchars
    exact String.toList_inj.1 (List.append_cancel_left hchars)

theorem ChildNamed.name_eq {st : BuildState} {child parent : Nat} {name name' : String}
    (h : ChildNamed st child parent name) (h' : ChildNamed st child parent name') : name = name' :=
  childPath_inj (h.path.symm.trans h'.path)

/-! ## What stays -/

/-- A module keeps all but its list of children. -/
structure Same (st st' : BuildState) (m : Nat) : Prop where
  path : (st'.node m).path = (st.node m).path
  file : (st'.node m).file = (st.node m).file
  items : (st'.node m).items = (st.node m).items
  parent : (st'.node m).parent = (st.node m).parent
  dir : st'.dir m = st.dir m

/-- The module that an item adds. -/
structure Added (module : Nat) (name : String) (file : Option Nat) (items : List Item) (dir : Path)
    (st st' : BuildState) : Prop where
  length : st'.modules.length = st.modules.length + 1
  node : st'.node st.modules.length =
    ⟨childPath (st.node module).path name, file, items, some module, []⟩
  dir : st'.dir st.modules.length = dir
  paired : st'.modDirs.length = st'.modules.length
  same : ∀ m < st.modules.length, Same st st' m

section
variable {st st' : BuildState} {module m : Nat} {name : String} {file : Option Nat}
  {items : List Item} {dir : Path} {isInline : Bool} {new : List Nat}

theorem same_add (hpaired : st.modDirs.length = st.modules.length) (hm : m < st.modules.length) :
    Same st (st.add module name file items dir) m := by
  have hnode : (st.add module name file items dir).node m = if module = m then
      { st.node m with children := (st.node m).children ++ [st.modules.length] } else st.node m :=
    Types.getD_addChild hm
  have hdir : (st.add module name file items dir).dir m = st.dir m :=
    grows_add.dir_eq (hpaired ▸ hm)
  constructor
  · rw [hnode]; split <;> rfl
  · rw [hnode]; split <;> rfl
  · rw [hnode]; split <;> rfl
  · rw [hnode]; split <;> rfl
  · exact hdir

theorem added_add (hpaired : st.modDirs.length = st.modules.length) :
    Added module name file items dir st (st.add module name file items dir) where
  length := Types.length_addChild
  node := node_add st module name file items dir
  dir := dir_add hpaired module name file items dir
  paired := grows_add.paired hpaired
  same _ hm := same_add hpaired hm

/-- An item adds one module, or none for a file that is missing. -/
theorem BuildsMod.added (h : BuildsMod module name items isInline st st' new)
    (hpaired : st.modDirs.length = st.modules.length) :
    (isInline = true ∧ new = [st.modules.length] ∧ st'.files = st.files ∧
      Added module name none items (st.dir module) st st') ∨
    (isInline = false ∧ new = [] ∧ findModuleFile st.files (st.dir module) name = none ∧
      ∃ bag, st' = { st with bag }) ∨
    (isInline = false ∧ new = [st.modules.length] ∧ ∃ (index : Nat) (file : FileData),
      findModuleFile st.files (st.dir module) name = some index ∧ st.files[index]? = some file ∧
      st'.files = setModule st.files index st.modules.length ∧
      Added module name (some file.id) file.items ((st.dir module).join name.toList) st st') := by
  cases h with
  | inlined h => exact .inl ⟨h, rfl, rfl, added_add hpaired⟩
  | missing h hfile bag => exact .inr (.inl ⟨h, rfl, hfile, bag, rfl⟩)
  | found h index file hfile hget =>
    refine .inr (.inr ⟨h, rfl, index, file, hfile, hget, rfl, ?_⟩)
    have hadded := @added_add st module name (some file.id) file.items
      ((st.dir module).join name.toList) hpaired
    refine ⟨hadded.length, hadded.node, hadded.dir, hadded.paired, fun m hm => ?_⟩
    have hsame := hadded.same m hm
    exact ⟨hsame.path, hsame.file, hsame.items, hsame.parent, hsame.dir⟩

end

/-- Where files are looked up, the modules that use them do not matter. -/
theorem findModuleFile_loaded {files files' : List FileData}
    (h : files'.map (·.loaded) = files.map (·.loaded)) (dir : Path) (name : String) :
    findModuleFile files' dir name = findModuleFile files dir name := by
  have hfind (path : Path) : findFileByPath files' path = findFileByPath files path := by
    have hcomp (files : List FileData) : findFileByPath files path =
        (files.map (·.loaded)).findIdx? fun entry => entry.2.2.1 = path := by
      rw [List.findIdx?_map]
      rfl
    rw [hcomp, hcomp, h]
  unfold findModuleFile
  rw [hfind, hfind]

theorem getElem_loaded {files files' : List FileData}
    (h : files'.map (·.loaded) = files.map (·.loaded)) {index : Nat} {file : FileData}
    (hget : files'[index]? = some file) :
    ∃ first, files[index]? = some first ∧ first.loaded = file.loaded := by
  have hmap := congrArg (·[index]?) h
  simp only [List.getElem?_map, hget, Option.map_some] at hmap
  exact Option.map_eq_some_iff.1 hmap.symm

/-! ## The tree while it is built -/

/-- What a child has from the `mod` item it comes from. -/
inductive Backed (files : List FileData) (st : BuildState) (child parent : Nat) (name : String)
    (sub : List Item) : Bool → Prop
  | inlined (file : (st.node child).file = none) (items : (st.node child).items = sub)
      (dir : st.dir child = st.dir parent) : Backed files st child parent name sub true
  | found {index : Nat} {entry : FileData}
      (hfile : findModuleFile files (st.dir parent) name = some index)
      (hget : files[index]? = some entry) (file : (st.node child).file = some entry.id)
      (items : (st.node child).items = entry.items)
      (dir : st.dir child = (st.dir parent).join name.toList) :
      Backed files st child parent name sub false

/-- Every module but the root comes from the first `mod` item of its name, and from no other. -/
structure Tree (files : List FileData) (root : FileData) (st : BuildState) : Prop where
  loaded : st.files.map (·.loaded) = files.map (·.loaded)
  paired : st.modDirs.length = st.modules.length
  nonempty : 0 < st.modules.length
  top : (st.node 0).parent = none
  file : (st.node 0).file = some root.id
  items : (st.node 0).items = root.items
  dir : st.dir 0 = root.dir
  child : ∀ c, c ≠ 0 → c < st.modules.length → ∃ p < c, ∃ name sub isInline,
    ChildNamed st c p name ∧ firstMod name (st.node p).items = some (sub, isInline) ∧
      Backed files st c p name sub isInline
  once : ∀ c c' p name, ChildNamed st c p name → ChildNamed st c' p name → c = c'

/-- An entry names a module that uses its file, when there is one. -/
structure Recorded (st : BuildState) : Prop where
  entry : ∀ file ∈ st.files, ∀ m, file.module = some m →
    m < st.modules.length ∧ (st.node m).file = some file.id
  used : ∀ m < st.modules.length, ∀ id, (st.node m).file = some id →
    ∃ file ∈ st.files, file.id = id ∧ file.module.isSome

/-- Every `mod` item of the module has its child, where it has a file. -/
def Done (files : List FileData) (st : BuildState) (m : Nat) : Prop :=
  ∀ name sub isInline, firstMod name (st.node m).items = some (sub, isInline) →
    (isInline = true ∨ ∃ index, findModuleFile files (st.dir m) name = some index) →
    ∃ c, ChildNamed st c m name

theorem Tree.parent_lt {files : List FileData} {root : FileData} {st : BuildState}
    (h : Tree files root st) {c p : Nat} (hc : c < st.modules.length)
    (hp : (st.node c).parent = some p) : p < c := by
  have hne : c ≠ 0 := by
    rintro rfl
    rw [h.top] at hp
    cases hp
  obtain ⟨q, hq, _, _, _, hnamed, -⟩ := h.child c hne hc
  rw [hnamed.under] at hp
  cases hp
  exact hq

section
variable {files : List FileData} {root : FileData} {st st' : BuildState} {module : Nat}
  {name : String} {file : Option Nat} {items : List Item} {dir : Path}

/-- The children after an item: those from before, and its own. -/
theorem Added.childNamed_iff (h : Added module name file items dir st st')
    (ht : Tree files root st) (hm : module < st.modules.length) {c p : Nat} {n : String} :
    ChildNamed st' c p n ↔
      ChildNamed st c p n ∨ (c = st.modules.length ∧ p = module ∧ n = name) := by
  constructor
  · intro hnamed
    have hlt : c < st.modules.length + 1 := h.length ▸ hnamed.here
    rcases Nat.lt_succ_iff_lt_or_eq.1 hlt with hc | rfl
    · have hunder : (st.node c).parent = some p := (h.same c hc).parent ▸ hnamed.under
      have hp := Nat.lt_trans (ht.parent_lt hc hunder) hc
      refine .inl ⟨hc, hunder, ?_⟩
      rw [← (h.same c hc).path, ← (h.same p hp).path]
      exact hnamed.path
    · have hunder := hnamed.under
      have hpath := hnamed.path
      rw [h.node] at hunder hpath
      cases hunder
      rw [(h.same _ hm).path] at hpath
      exact .inr ⟨rfl, rfl, (childPath_inj hpath).symm⟩
  · rintro (hnamed | ⟨rfl, rfl, rfl⟩)
    · have hp := Nat.lt_trans (ht.parent_lt hnamed.here hnamed.under) hnamed.here
      have hsame := h.same c hnamed.here
      refine ⟨h.length ▸ Nat.lt_succ_of_lt hnamed.here, hsame.parent.trans hnamed.under, ?_⟩
      rw [hsame.path, (h.same p hp).path]
      exact hnamed.path
    · refine ⟨h.length ▸ Nat.lt_succ_self _, ?_, ?_⟩
      · rw [h.node]
      · rw [h.node, (h.same _ hm).path]

theorem Backed.same {c p : Nat} {sub : List Item} {isInline : Bool}
    (h : Backed files st c p name sub isInline) (hc : Same st st' c) (hp : Same st st' p) :
    Backed files st' c p name sub isInline := by
  cases h with
  | inlined hfile hitems hdir =>
    exact .inlined (hc.file.trans hfile) (hc.items.trans hitems)
      (hc.dir.trans (hdir.trans hp.dir.symm))
  | found hfind hget hfile hitems hdir =>
    refine .found (hp.dir.symm ▸ hfind) hget (hc.file.trans hfile) (hc.items.trans hitems) ?_
    rw [hc.dir, hp.dir, hdir]

/-- The step of the tree: an item adds the first module of its name. -/
theorem Tree.added (h : Tree files root st) (hadd : Added module name file items dir st st')
    (hloaded : st'.files.map (·.loaded) = st.files.map (·.loaded))
    (hm : module < st.modules.length) {sub : List Item} {isInline : Bool}
    (hfirst : firstMod name (st.node module).items = some (sub, isInline))
    (hbacked : Backed files st' st.modules.length module name sub isInline)
    (hfresh : ∀ c, ¬ ChildNamed st c module name) : Tree files root st' where
  loaded := hloaded.trans h.loaded
  paired := hadd.paired
  nonempty := hadd.length ▸ Nat.succ_pos _
  top := (hadd.same 0 h.nonempty).parent.trans h.top
  file := (hadd.same 0 h.nonempty).file.trans h.file
  items := (hadd.same 0 h.nonempty).items.trans h.items
  dir := (hadd.same 0 h.nonempty).dir.trans h.dir
  child c hne hc := by
    rw [hadd.length] at hc
    rcases Nat.lt_succ_iff_lt_or_eq.1 hc with hc | rfl
    · obtain ⟨p, hp, n, sub, isInline, hnamed, hfirst, hbacked⟩ := h.child c hne hc
      have hsame := hadd.same p (Nat.lt_trans hp hc)
      refine ⟨p, hp, n, sub, isInline, (hadd.childNamed_iff h hm).2 (.inl hnamed), ?_,
        hbacked.same (hadd.same c hc) hsame⟩
      rw [hsame.items]
      exact hfirst
    · refine ⟨module, hm, name, sub, isInline,
        (hadd.childNamed_iff h hm).2 (.inr ⟨rfl, rfl, rfl⟩), ?_, hbacked⟩
      rw [(hadd.same module hm).items]
      exact hfirst
  once c c' p n hc hc' := by
    rcases (hadd.childNamed_iff h hm).1 hc with hc | ⟨rfl, rfl, rfl⟩ <;>
      rcases (hadd.childNamed_iff h hm).1 hc' with hc' | ⟨rfl, hp, hn⟩
    · exact h.once c c' p n hc hc'
    · subst hp hn
      exact absurd hc (hfresh c)
    · exact absurd hc' (hfresh c')
    · rfl

theorem Recorded.added_inline (h : Recorded st)
    (hadd : Added module name none items dir st st') (hfiles : st'.files = st.files) :
    Recorded st' where
  entry file hfile m hm := by
    obtain ⟨hlt, hnode⟩ := h.entry file (hfiles ▸ hfile) m hm
    exact ⟨hadd.length ▸ Nat.lt_succ_of_lt hlt, (hadd.same m hlt).file.trans hnode⟩
  used m hm id hid := by
    rw [hadd.length] at hm
    rcases Nat.lt_succ_iff_lt_or_eq.1 hm with hm | rfl
    · rw [(hadd.same m hm).file] at hid
      rw [hfiles]
      exact h.used m hm id hid
    · rw [hadd.node] at hid
      cases hid

theorem mem_setModule {index : Nat} {entry : FileData} (h : entry ∈ setModule files index module) :
    entry ∈ files ∨
      ∃ old, files[index]? = some old ∧ entry = { old with module := some module } := by
  obtain ⟨i, hi⟩ := List.mem_iff_getElem?.1 h
  rw [setModule, List.getElem?_modify] at hi
  obtain ⟨old, hold, hentry⟩ := Option.map_eq_some_iff.1 hi
  split at hentry
  · next heq =>
    subst heq
    exact .inr ⟨old, hold, hentry.symm⟩
  · exact .inl (hentry ▸ List.mem_of_getElem? hold)

/-- Of every entry there is one with its id after the change, which keeps that it is used. -/
theorem mem_setModule_of {index : Nat} {entry : FileData} (h : entry ∈ files) :
    ∃ new ∈ setModule files index module, new.id = entry.id ∧
      (entry.module.isSome → new.module.isSome) := by
  obtain ⟨i, hi⟩ := List.mem_iff_getElem?.1 h
  have hget : (setModule files index module)[i]? =
      some (if index = i then { entry with module := some module } else entry) := by
    rw [setModule, List.getElem?_modify, hi]
    split <;> rfl
  refine ⟨_, List.mem_of_getElem? hget, ?_, ?_⟩
  · split <;> rfl
  · split
    · exact fun _ => rfl
    · exact id

theorem Recorded.added_file (h : Recorded st) {index : Nat} {entry : FileData}
    (hadd : Added module name (some entry.id) items dir st st')
    (hget : st.files[index]? = some entry)
    (hfiles : st'.files = setModule st.files index st.modules.length) : Recorded st' where
  entry file hfile m hm := by
    rw [hfiles] at hfile
    rcases mem_setModule hfile with hold | ⟨old, hold, rfl⟩
    · obtain ⟨hlt, hnode⟩ := h.entry file hold m hm
      exact ⟨hadd.length ▸ Nat.lt_succ_of_lt hlt, (hadd.same m hlt).file.trans hnode⟩
    · cases hm
      rw [hget] at hold
      cases hold
      refine ⟨hadd.length ▸ Nat.lt_succ_self _, ?_⟩
      rw [hadd.node]
  used m hm id hid := by
    rw [hadd.length] at hm
    rw [hfiles]
    rcases Nat.lt_succ_iff_lt_or_eq.1 hm with hm | rfl
    · rw [(hadd.same m hm).file] at hid
      obtain ⟨file, hfile, hfid, hsome⟩ := h.used m hm id hid
      obtain ⟨new, hnew, hnid, hkeep⟩ := mem_setModule_of hfile
      exact ⟨new, hnew, hnid.trans hfid, hkeep hsome⟩
    · rw [hadd.node] at hid
      cases hid
      have hnew : (setModule st.files index st.modules.length)[index]? =
          some { entry with module := some st.modules.length } := by
        rw [setModule, List.getElem?_modify, hget]
        simp
      exact ⟨_, List.mem_of_getElem? hnew, rfl, rfl⟩

theorem Done.added {m : Nat} (h : Done files st m) (hadd : Added module name file items dir st st')
    (ht : Tree files root st) (hmodule : module < st.modules.length) (hm : m < st.modules.length) :
    Done files st' m := by
  intro n sub isInline hfirst hleads
  rw [(hadd.same m hm).items] at hfirst
  rw [(hadd.same m hm).dir] at hleads
  obtain ⟨c, hc⟩ := h n sub isInline hfirst hleads
  exact ⟨c, (hadd.childNamed_iff ht hmodule).2 (.inl hc)⟩

end

theorem firstMod_append (name : String) (left right : List Item) :
    firstMod name (left ++ right) = (firstMod name left).or (firstMod name right) := by
  induction left with
  | nil => rfl
  | cons item left ih =>
    cases item with
    | mod _ _ ident items isInline =>
      simp only [List.cons_append, firstMod]
      split
      · rfl
      · exact ih
    | _ => simpa only [List.cons_append, firstMod] using ih

theorem firstMod_other {item : Item} (h : isMod item = false) (name : String) :
    firstMod name [item] = none := by
  cases item with
  | mod => cases h
  | _ => rfl

/-! ## The loop -/

/-- The tree so far: what waits is in it once, and all else is done. -/
structure Waiting (files : List FileData) (root : FileData) (st : BuildState) (work : List Nat) :
    Prop where
  tree : Tree files root st
  recorded : Recorded st
  nodup : work.Nodup
  lt : ∀ m ∈ work, m < st.modules.length
  done : ∀ m < st.modules.length, m ∉ work → Done files st m

def Childless (st : BuildState) (m : Nat) : Prop := ∀ c name, ¬ ChildNamed st c m name

/-- Between two items of a module: the names seen are those of its children and of all items so
far. -/
structure Building (files : List FileData) (root : FileData) (module : Nat) (left : List Item)
    (declared : List String) (st : BuildState) (worklist : List Nat) : Prop where
  waiting : Waiting files root st (module :: worklist)
  childless : ∀ m ∈ worklist, Childless st m
  items : ∃ before, (st.node module).items = before ++ left ∧
    ∀ name, firstMod name before ≠ none → name ∈ declared
  children : ∀ c name, ChildNamed st c module name → name ∈ declared
  led : ∀ name ∈ declared, ∀ sub isInline,
    firstMod name (st.node module).items = some (sub, isInline) →
    (isInline = true ∨ ∃ index, findModuleFile files (st.dir module) name = some index) →
    ∃ c, ChildNamed st c module name

section
variable {files : List FileData} {root : FileData} {st st' : BuildState} {module : Nat}
  {left : List Item} {declared : List String} {worklist : List Nat}

/-- A report changes nothing that is said here. -/
theorem Tree.bag (h : Tree files root st) (bag : DiagBag) : Tree files root { st with bag } where
  loaded := h.loaded
  paired := h.paired
  nonempty := h.nonempty
  top := h.top
  file := h.file
  items := h.items
  dir := h.dir
  child c hne hc := by
    obtain ⟨p, hp, name, sub, isInline, hnamed, hfirst, hbacked⟩ := h.child c hne hc
    exact ⟨p, hp, name, sub, isInline, ⟨hnamed.here, hnamed.under, hnamed.path⟩, hfirst,
      hbacked.same ⟨rfl, rfl, rfl, rfl, rfl⟩ ⟨rfl, rfl, rfl, rfl, rfl⟩⟩
  once c c' p name hc hc' :=
    h.once c c' p name ⟨hc.here, hc.under, hc.path⟩ ⟨hc'.here, hc'.under, hc'.path⟩

theorem childNamed_bag {bag : DiagBag} {c p : Nat} {name : String} :
    ChildNamed { st with bag } c p name ↔ ChildNamed st c p name :=
  ⟨fun h => ⟨h.here, h.under, h.path⟩, fun h => ⟨h.here, h.under, h.path⟩⟩

theorem Done.bag {m : Nat} (h : Done files st m) (bag : DiagBag) :
    Done files { st with bag } m := by
  intro name sub isInline hfirst hleads
  obtain ⟨c, hc⟩ := h name sub isInline hfirst hleads
  exact ⟨c, childNamed_bag.2 hc⟩

theorem Waiting.bag {work : List Nat} (h : Waiting files root st work) (bag : DiagBag) :
    Waiting files root { st with bag } work :=
  ⟨h.tree.bag bag, ⟨h.recorded.entry, h.recorded.used⟩, h.nodup, h.lt,
    fun m hm hwork => (h.done m hm hwork).bag bag⟩

theorem Building.bag (h : Building files root module left declared st worklist) (bag : DiagBag) :
    Building files root module left declared { st with bag } worklist where
  waiting := h.waiting.bag bag
  childless m hm c name hc := h.childless m hm c name (childNamed_bag.1 hc)
  items := h.items
  children c name hc := h.children c name (childNamed_bag.1 hc)
  led name hname sub isInline hfirst hleads := by
    obtain ⟨c, hc⟩ := h.led name hname sub isInline hfirst hleads
    exact ⟨c, childNamed_bag.2 hc⟩

/-- An item goes by whose name, if it declares one, has been seen. -/
theorem Building.pass {item : Item} (h : Building files root module (item :: left) declared st
    worklist) (hseen : ∀ name, firstMod name [item] ≠ none → name ∈ declared) :
    Building files root module left declared st worklist := by
  obtain ⟨before, hitems, hbefore⟩ := h.items
  refine ⟨h.waiting, h.childless, ⟨before ++ [item], ?_, fun name hname => ?_⟩, h.children, h.led⟩
  · rw [hitems, List.append_assoc]
    rfl
  · rw [firstMod_append] at hname
    cases hfirst : firstMod name before with
    | some found => exact hbefore name (hfirst ▸ Option.some_ne_none _)
    | none =>
      rw [hfirst, Option.none_or] at hname
      exact hseen name hname

section
variable {span : Span} {isPub isInline : Bool} {name : Ast.Ident} {items : List Item}

/-- An item of a new name is the first of its name. -/
theorem Building.first (h : Building files root module
    (.mod span isPub name items isInline :: left) declared st worklist)
    (hnew : name.name ∉ declared) :
    firstMod name.name (st.node module).items = some (items, isInline) := by
  obtain ⟨before, hitems, hbefore⟩ := h.items
  have hnone : firstMod name.name before = none :=
    Decidable.of_not_not fun hsome => hnew (hbefore _ hsome)
  rw [hitems, firstMod_append, hnone, Option.none_or, firstMod, if_pos rfl]

theorem firstMod_single {other : String}
    (h : firstMod other [.mod span isPub name items isInline] ≠ none) : other = name.name := by
  simp only [firstMod] at h
  split at h
  · next heq => exact heq.symm
  · exact absurd rfl h

theorem Waiting.added {file : Option Nat} {sub : List Item} {dir : Path}
    (h : Waiting files root st (module :: worklist))
    (hadd : Added module name.name file sub dir st st') (htree : Tree files root st')
    (hrecorded : Recorded st') :
    Waiting files root st' (module :: st.modules.length :: worklist) where
  tree := htree
  recorded := hrecorded
  nodup := by
    have hlength : st.modules.length ∉ module :: worklist :=
      fun hmem => Nat.lt_irrefl _ (h.lt _ hmem)
    refine (List.Perm.swap ..).nodup_iff.1 (List.nodup_cons.2 ⟨hlength, h.nodup⟩)
  lt m hm := by
    rw [hadd.length]
    rcases List.mem_cons.1 hm with rfl | hm
    · exact Nat.lt_succ_of_lt (h.lt _ (List.mem_cons_self ..))
    rcases List.mem_cons.1 hm with rfl | hm
    · exact Nat.lt_succ_self _
    · exact Nat.lt_succ_of_lt (h.lt _ (.tail _ hm))
  done m hm hwork := by
    have hmodule := h.lt module (List.mem_cons_self ..)
    simp only [List.mem_cons, not_or] at hwork
    rw [hadd.length] at hm
    have hlt : m < st.modules.length :=
      Nat.lt_of_le_of_ne (Nat.le_of_lt_succ hm) hwork.2.1
    refine (h.done m hlt ?_).added hadd h.tree hmodule hlt
    simpa only [List.mem_cons, not_or] using ⟨hwork.1, hwork.2.2⟩

/-- The item has added its module. -/
theorem Building.added {file : Option Nat} {sub : List Item} {dir : Path}
    (h : Building files root module (.mod span isPub name items isInline :: left) declared st
      worklist) (hadd : Added module name.name file sub dir st st') (htree : Tree files root st')
    (hrecorded : Recorded st') :
    Building files root module left (declared ++ [name.name]) st'
      (st.modules.length :: worklist) := by
  have hmodule := h.waiting.lt module (List.mem_cons_self ..)
  have hsame := hadd.same module hmodule
  have hiff {c p : Nat} {n : String} := @Added.childNamed_iff files root st st' module name.name
    file sub dir hadd h.waiting.tree hmodule c p n
  refine ⟨h.waiting.added hadd htree hrecorded, ?_, ?_, ?_, ?_⟩
  · intro m hm c n hc
    rcases hiff.1 hc with hold | ⟨-, rfl, -⟩
    · rcases List.mem_cons.1 hm with rfl | hm
      · exact Nat.lt_asymm hold.here (h.waiting.tree.parent_lt hold.here hold.under)
      · exact h.childless m hm c n hold
    · rcases List.mem_cons.1 hm with heq | hm
      · exact absurd heq (Nat.ne_of_lt hmodule)
      · exact (List.nodup_cons.1 h.waiting.nodup).1 hm
  · obtain ⟨before, hitems, hbefore⟩ := h.items
    refine ⟨before ++ [.mod span isPub name items isInline], ?_, fun n hn => ?_⟩
    · rw [hsame.items, hitems, List.append_assoc]
      rfl
    · rw [firstMod_append] at hn
      cases hfirst : firstMod n before with
      | some found => exact List.mem_append_left _ (hbefore n (hfirst ▸ Option.some_ne_none _))
      | none =>
        rw [hfirst, Option.none_or] at hn
        exact List.mem_append_right _ (List.mem_singleton.2 (firstMod_single hn))
  · intro c n hc
    rcases hiff.1 hc with hold | ⟨-, -, rfl⟩
    · exact List.mem_append_left _ (h.children c n hold)
    · exact List.mem_append_right _ (List.mem_singleton.2 rfl)
  · intro n hn sub isInline hfirst hleads
    rcases List.mem_append.1 hn with hn | hn
    · rw [hsame.items] at hfirst
      rw [hsame.dir] at hleads
      obtain ⟨c, hc⟩ := h.led n hn sub isInline hfirst hleads
      exact ⟨c, hiff.2 (.inl hc)⟩
    · obtain rfl := List.mem_singleton.1 hn
      exact ⟨st.modules.length, hiff.2 (.inr ⟨rfl, rfl, rfl⟩)⟩

/-- **The step of the loop** of `build_children`. -/
theorem Building.builds {new : List Nat} (h : Building files root module
    (.mod span isPub name items isInline :: left) declared st worklist)
    (hnew : name.name ∉ declared) (hb : BuildsMod module name.name items isInline st st' new) :
    Building files root module left (declared ++ [name.name]) st' (new ++ worklist) := by
  have hmodule := h.waiting.lt module (List.mem_cons_self ..)
  have hfirst := h.first hnew
  have hfresh (c : Nat) : ¬ ChildNamed st c module name.name := fun hc => hnew (h.children c _ hc)
  have hfind := findModuleFile_loaded h.waiting.tree.loaded (st.dir module) name.name
  rcases hb.added h.waiting.tree.paired with ⟨rfl, rfl, hfiles, hadd⟩ |
    ⟨rfl, rfl, hnone, bag, rfl⟩ | ⟨rfl, rfl, index, file, hfile, hget, hfiles, hadd⟩
  · have hbacked : Backed files st' st.modules.length module name.name items true :=
      .inlined (by rw [hadd.node]) (by rw [hadd.node])
        (hadd.dir.trans (hadd.same _ hmodule).dir.symm)
    refine h.added hadd (h.waiting.tree.added hadd ?_ hmodule hfirst hbacked hfresh)
      (h.waiting.recorded.added_inline hadd hfiles)
    rw [hfiles]
  · -- The module is reported, and its name is passed by like one that has been seen.
    have hmore : Building files root module (.mod span isPub name items false :: left)
        (declared ++ [name.name]) st worklist := by
      obtain ⟨before, hitems, hbefore⟩ := h.items
      refine ⟨h.waiting, h.childless, ⟨before, hitems, fun n hn => ?_⟩, fun c n hc => ?_, ?_⟩
      · exact List.mem_append_left _ (hbefore n hn)
      · exact List.mem_append_left _ (h.children c n hc)
      · intro n hn sub isInline hsome hleads
        rcases List.mem_append.1 hn with hn | hn
        · exact h.led n hn sub isInline hsome hleads
        · obtain rfl := List.mem_singleton.1 hn
          rw [hfirst] at hsome
          cases hsome
          rcases hleads with hinline | ⟨index, hindex⟩
          · cases hinline
          · rw [← hfind, hnone] at hindex
            cases hindex
    refine (hmore.bag bag).pass fun n hn => ?_
    exact List.mem_append_right _ (List.mem_singleton.2 (firstMod_single hn))
  · obtain ⟨entry, hentry, hloaded⟩ := getElem_loaded h.waiting.tree.loaded hget
    simp only [FileData.loaded, Prod.mk.injEq] at hloaded
    obtain ⟨hid, -, -, hitems⟩ := hloaded
    have hdir := (hadd.same _ hmodule).dir
    have hbacked : Backed files st' st.modules.length module name.name items false := by
      refine @Backed.found files st' _ module name.name items index entry ?_ hentry ?_ ?_ ?_
      · rw [hdir, ← hfind]
        exact hfile
      · rw [hadd.node, hid]
      · rw [hadd.node, hitems]
      · rw [hadd.dir, hdir]
    refine h.added hadd (h.waiting.tree.added hadd ?_ hmodule hfirst hbacked hfresh)
      (h.waiting.recorded.added_file hadd hget hfiles)
    rw [hfiles]
    exact setModule_loaded _ _ _

end

/-- What the loop of `build_tree` keeps. -/
structure Standing (files : List FileData) (root : FileData) (st : BuildState) (work : List Nat) :
    Prop where
  waiting : Waiting files root st work
  childless : ∀ m ∈ work, Childless st m

/-- **One module of the worklist**: it is done when its items are. -/
theorem Standing.round {rest : List Nat} (h : Standing files root st (module :: rest)) :
    Standing files root (buildChildren module st rest).1 (buildChildren module st rest).2 := by
  have hstart : Building files root module (st.node module).items [] st rest := by
    refine ⟨h.waiting, fun m hm => h.childless m (.tail _ hm), ⟨[], rfl, ?_⟩, ?_, ?_⟩
    · exact fun _ hname => absurd rfl hname
    · exact fun c name hc => absurd hc (h.childless module (List.mem_cons_self ..) c name)
    · exact fun _ hname => absurd hname List.not_mem_nil
  obtain ⟨declared, hend⟩ := @buildItems_invariant module (Building files root module)
    (fun item rest declared st worklist hother h => h.pass fun name hname =>
      absurd (firstMod_other hother name) hname)
    (fun span isPub name items isInline rest declared st worklist bag hseen h =>
      (h.bag bag).pass fun other hother => firstMod_single hother ▸ hseen)
    (fun span isPub name items isInline rest declared st worklist st' new hnew h hb =>
      h.builds hnew hb)
    (st.node module).items [] st rest hstart
  have hwaiting := hend.waiting
  refine ⟨⟨hwaiting.tree, hwaiting.recorded, (List.nodup_cons.1 hwaiting.nodup).2,
    fun m hm => hwaiting.lt m (.tail _ hm), fun m hm hwork => ?_⟩, hend.childless⟩
  by_cases heq : m = module
  · subst heq
    obtain ⟨before, hitems, hbefore⟩ := hend.items
    rw [List.append_nil] at hitems
    intro name sub isInline hfirst hleads
    refine hend.led name (hbefore name fun hnone => ?_) sub isInline hfirst hleads
    rw [← hitems] at hnone
    exact Option.some_ne_none _ (hfirst.symm.trans hnone)
  · exact hwaiting.done m hm fun hmem => (List.mem_cons.1 hmem).elim heq hwork

end

/-- What `run` gives the resolver: entries of distinct ids that no module uses yet, with modules
named by identifiers, of which the keyword `mod` is none. -/
structure Loaded (files : List FileData) : Prop where
  ids : (files.map (·.id)).Nodup
  unused : ∀ file ∈ files, file.module = none
  names : ∀ file ∈ files, ∀ name ∈ declaredNames file.items,
    Path.IsName name.toList ∧ name ≠ "mod"

theorem loadFiles_entry {name : Nat → Path.Text} {items : Nat → List Item} {ids : List Nat}
    {bag : DiagBag} {file : FileData} (h : file ∈ (loadFiles name items ids bag).1) :
    file.id ∈ ids ∧ file.items = items file.id ∧ file.module = none := by
  induction ids generalizing bag with
  | nil => cases h
  | cons id ids ih =>
    rw [loadFiles] at h
    split at h
    · obtain ⟨hid, hrest⟩ := ih h
      exact ⟨.tail _ hid, hrest⟩
    · rcases List.mem_cons.1 h with rfl | h
      · exact ⟨.head _, rfl, rfl⟩
      · obtain ⟨hid, hrest⟩ := ih h
        exact ⟨.tail _ hid, hrest⟩

theorem loadFiles_loaded (name : Nat → Path.Text) {items : Nat → List Item} {ids : List Nat}
    (hids : ids.Nodup) (hitems : ∀ id ∈ ids, ∀ name ∈ declaredNames (items id),
      Path.IsName name.toList ∧ name ≠ "mod") (bag : DiagBag) :
    Loaded (loadFiles name items ids bag).1 := by
  refine ⟨?_, fun file hfile => (loadFiles_entry hfile).2.2, fun file hfile => ?_⟩
  · clear hitems
    induction ids generalizing bag with
    | nil => exact List.nodup_nil
    | cons id ids ih =>
      obtain ⟨hid, hids⟩ := List.nodup_cons.1 hids
      rw [loadFiles]
      split
      · exact ih hids _
      · refine List.nodup_cons.2 ⟨fun hmem => hid ?_, ih hids _⟩
        obtain ⟨file, hfile, hfid⟩ := List.mem_map.1 hmem
        have heq : file.id = id := hfid
        exact heq ▸ (loadFiles_entry hfile).1
  · obtain ⟨hid, hfile, -⟩ := loadFiles_entry hfile
    rw [hfile]
    exact hitems file.id hid

theorem standing_rooted {files : List FileData} (hfiles : Loaded files) {root index : Nat}
    {file : FileData} (hget : files[index]? = some file) (hid : file.id = root) (bag : DiagBag) :
    Standing files file (rooted files root index file bag) [0] := by
  have hbelow {c p : Nat} {name : String} (hc : ChildNamed (rooted files root index file bag) c p
      name) : False := by
    have hunder := hc.under
    obtain rfl : c = 0 := Nat.lt_one_iff.1 hc.here
    cases hunder
  refine ⟨⟨⟨setModule_loaded _ _ _, rfl, Nat.one_pos, rfl, congrArg some hid.symm, rfl, rfl,
    ?_, ?_⟩, ⟨?_, ?_⟩, List.nodup_singleton 0, List.forall_mem_singleton.2 Nat.one_pos, ?_⟩, ?_⟩
  · exact fun c hne hc => absurd (Nat.lt_one_iff.1 hc) hne
  · exact fun c c' p name hc _ => absurd hc hbelow
  · intro entry hentry m hm
    rcases mem_setModule hentry with hold | ⟨old, hold, rfl⟩
    · rw [hfiles.unused entry hold] at hm
      cases hm
    · cases hm
      rw [hget] at hold
      cases hold
      exact ⟨Nat.one_pos, congrArg some hid.symm⟩
  · intro m hm id hfile
    obtain rfl := Nat.lt_one_iff.1 hm
    cases hfile
    have hnew : (setModule files index 0)[index]? = some { file with module := some 0 } := by
      rw [setModule, List.getElem?_modify, hget]
      simp
    exact ⟨_, List.mem_of_getElem? hnew, hid, rfl⟩
  · exact fun m hm hwork => absurd (List.mem_singleton.2 (Nat.lt_one_iff.1 hm)) hwork
  · exact fun m _ c name hc => hbelow hc

/-! ## Names and directories -/

theorem firstMod_some {name : String} {items sub : List Item} {isInline : Bool}
    (h : firstMod name items = some (sub, isInline)) :
    ∃ span isPub ident, .mod span isPub ident sub isInline ∈ items ∧ ident.name = name := by
  induction items with
  | nil => cases h
  | cons item items ih =>
    cases item with
    | mod span isPub ident inner inline =>
      simp only [firstMod] at h
      split at h
      · next heq =>
        cases h
        exact ⟨span, isPub, ident, List.mem_cons_self .., heq⟩
      · obtain ⟨span, isPub, ident, hmem, hname⟩ := ih h
        exact ⟨span, isPub, ident, .tail _ hmem, hname⟩
    | _ =>
      obtain ⟨span, isPub, ident, hmem, hname⟩ := ih h
      exact ⟨span, isPub, ident, .tail _ hmem, hname⟩

theorem firstMod_names {name : String} {items sub : List Item} {isInline : Bool}
    (h : firstMod name items = some (sub, isInline)) : name ∈ declaredNames items ∧
      ∀ inner ∈ declaredNames sub, inner ∈ declaredNames items := by
  obtain ⟨span, isPub, ident, hmem, rfl⟩ := firstMod_some h
  refine ⟨mem_declaredNames hmem ?_, fun inner hinner => mem_declaredNames hmem ?_⟩
  · rw [itemNames]
    exact .head _
  · rw [itemNames]
    exact .tail _ hinner

/-- Identifiers that `mod` items declare. -/
def Named (items : List Item) : Prop :=
  ∀ name ∈ declaredNames items, Path.IsName name.toList ∧ name ≠ "mod"

theorem Named.sub {items sub : List Item} {name : String} {isInline : Bool} (h : Named items)
    (hfirst : firstMod name items = some (sub, isInline)) :
    (Path.IsName name.toList ∧ name ≠ "mod") ∧ Named sub :=
  ⟨h _ (firstMod_names hfirst).1, fun inner hinner => h _ ((firstMod_names hfirst).2 inner hinner)⟩

theorem al_inj {name name' : String}
    (h : name.toList ++ ".al".toList = name'.toList ++ ".al".toList) : name = name' :=
  String.toList_inj.1 (List.append_cancel_right h)

/-- **A file is that of one module**: its path says the directory and the name. -/
theorem findModuleFile_inj {files : List FileData} {dir dir' : Path} {name name' : String}
    {index : Nat} (hname : Path.IsName name.toList ∧ name ≠ "mod")
    (hname' : Path.IsName name'.toList ∧ name' ≠ "mod")
    (h : findModuleFile files dir name = some index)
    (h' : findModuleFile files dir' name' = some index) : dir = dir' ∧ name = name' := by
  have hmixed {dir dir' : Path} {name name' : String}
      (hname : Path.IsName name.toList ∧ name ≠ "mod")
      (heq : dir.join (name.toList ++ ".al".toList) =
        dir'.join (name'.toList ++ "/mod.al".toList)) : False := by
    rw [join_mod] at heq
    have hal := (Path.join_inj (isName_al hname.1) isName_mod heq).2
    exact hname.2 (@al_inj name "mod" hal)
  obtain ⟨file, hget, hpath⟩ := findModuleFile_some h
  obtain ⟨file', hget', hpath'⟩ := findModuleFile_some h'
  rw [hget] at hget'
  cases hget'
  rcases hpath with hpath | hpath <;> rcases hpath' with hpath' | hpath' <;>
    have heq := hpath.symm.trans hpath'
  · obtain ⟨hdir, hal⟩ := Path.join_inj (isName_al hname.1) (isName_al hname'.1) heq
    exact ⟨hdir, al_inj hal⟩
  · exact absurd heq (hmixed hname)
  · exact absurd heq.symm (hmixed hname')
  · rw [join_mod, join_mod] at heq
    obtain ⟨hdir, hn⟩ := Path.join_inj hname.1 hname'.1 (Path.join_inj isName_mod isName_mod heq).1
    exact ⟨hdir, String.toList_inj.1 hn⟩

theorem fileUnder_loaded {files files' : List FileData}
    (h : files'.map (·.loaded) = files.map (·.loaded)) (dir : Path) (name : String) :
    fileUnder files' dir name = fileUnder files dir name := by
  unfold fileUnder
  rw [findModuleFile_loaded h]
  refine Option.bind_congr fun index _ => ?_
  have hids := congrArg (fun entries => (entries[index]?).map (·.1)) h
  simp only [List.getElem?_map, Option.map_map] at hids
  exact hids

theorem fileUnder_some {files : List FileData} {dir : Path} {name : String} {id : Nat} :
    fileUnder files dir name = some id ↔ ∃ (index : Nat) (file : FileData),
      findModuleFile files dir name = some index ∧ files[index]? = some file ∧ file.id = id := by
  unfold fileUnder
  constructor
  · intro h
    obtain ⟨index, hfile, hid⟩ := Option.bind_eq_some_iff.1 h
    obtain ⟨file, hget, hid⟩ := Option.map_eq_some_iff.1 hid
    exact ⟨index, file, hfile, hget, hid⟩
  · rintro ⟨index, file, hfile, hget, rfl⟩
    rw [hfile, Option.bind_some, hget, Option.map_some]

section
variable {files : List FileData} {root : FileData}

/-- Outside inline modules files are looked up in a module's own directory, and inside them
somewhere above it. -/
theorem Place.depth {own dir : Path} {items : List Item} {inside : Bool}
    (hfiles : ∀ file ∈ files, Named file.items) (hroot : root ∈ files)
    (h : Place files root own dir items inside) : Named items ∧
      (if inside then dir.stack.length < own.stack.length else own = dir) := by
  induction h with
  | root => exact ⟨hfiles root hroot, rfl⟩
  | @inline own dir items sub inside name h hmod ih =>
    obtain ⟨hname, hsub⟩ := ih.1.sub hmod
    refine ⟨hsub, ?_⟩
    rw [if_pos rfl, Path.stack_join hname.1, List.length_cons]
    cases inside with
    | true => exact Nat.lt_succ_of_lt ih.2
    | false =>
      have hown : own = dir := ih.2
      exact hown ▸ Nat.lt_succ_self _
  | @file own dir items sub inside name index file h hmod hfile hget ih =>
    obtain ⟨hname, -⟩ := ih.1.sub hmod
    refine ⟨hfiles file (List.mem_of_getElem? hget), ?_⟩
    cases inside with
    | true =>
      rw [if_pos rfl, Path.stack_join hname.1, Path.stack_join hname.1, List.length_cons,
        List.length_cons]
      exact Nat.succ_lt_succ ih.2
    | false =>
      have hown : own = dir := ih.2
      exact congrArg (Path.join · name.toList) hown

/-! ## Modules and places -/

variable {st : BuildState}

theorem Tree.backed (h : Tree files root st) {c p : Nat} {name : String}
    (hc : ChildNamed st c p name) : ∃ sub isInline,
      firstMod name (st.node p).items = some (sub, isInline) ∧
        Backed files st c p name sub isInline := by
  have hne : c ≠ 0 := by
    rintro rfl
    have := hc.under
    rw [h.top] at this
    cases this
  obtain ⟨q, -, name', sub, isInline, hnamed, hfirst, hbacked⟩ := h.child c hne hc.here
  have hq : some q = some p := hnamed.under.symm.trans hc.under
  cases hq
  obtain rfl := hnamed.name_eq hc
  exact ⟨sub, isInline, hfirst, hbacked⟩

/-- A declared file module has the file that is found where the tree looks. -/
theorem Tree.child_file (h : Tree files root st) {m : Nat} {name : String} {sub : List Item}
    (hdone : Done files st m) (hfirst : firstMod name (st.node m).items = some (sub, false))
    (id : Nat) : (∃ child, ChildNamed st child m name ∧ (st.node child).file = some id) ↔
      fileUnder files (st.dir m) name = some id := by
  have hchild {child : Nat} (hc : ChildNamed st child m name) : ∃ index entry,
      findModuleFile files (st.dir m) name = some index ∧ files[index]? = some entry ∧
        (st.node child).file = some entry.id := by
    obtain ⟨sub', isInline, hfirst', hbacked⟩ := h.backed hc
    rw [hfirst] at hfirst'
    cases hfirst'
    cases hbacked with
    | found hfile hget hbacked => exact ⟨_, _, hfile, hget, hbacked⟩
  rw [fileUnder_some]
  constructor
  · rintro ⟨child, hc, hfile⟩
    obtain ⟨index, entry, hfind, hget, hid⟩ := hchild hc
    rw [hid] at hfile
    exact ⟨index, entry, hfind, hget, Option.some.inj hfile⟩
  · rintro ⟨index, file, hfind, hget, rfl⟩
    obtain ⟨child, hc⟩ := hdone name sub false hfirst (.inr ⟨index, hfind⟩)
    obtain ⟨index', entry, hfind', hget', hid⟩ := hchild hc
    rw [hfind] at hfind'
    cases hfind'
    rw [hget] at hget'
    cases hget'
    exact ⟨child, hc, hid⟩

/-- Where the tree has every child, each place is one of its modules. -/
theorem Place.module {own dir : Path} {items : List Item} {inside : Bool} (ht : Tree files root st)
    (hdone : ∀ m < st.modules.length, Done files st m) (h : Place files root own dir items inside) :
    ∃ m < st.modules.length, OwnDir st root.dir m own ∧ st.dir m = dir ∧
      (st.node m).items = items := by
  induction h with
  | root => exact ⟨0, ht.nonempty, .root, ht.dir, ht.items⟩
  | @inline own dir items sub inside name h hmod ih =>
    obtain ⟨m, hm, hown, rfl, rfl⟩ := ih
    obtain ⟨child, hc⟩ := hdone m hm name sub true hmod (.inl rfl)
    obtain ⟨sub', isInline, hfirst, hbacked⟩ := ht.backed hc
    rw [hmod] at hfirst
    cases hfirst
    cases hbacked with
    | inlined hfile hitems hdir => exact ⟨child, hc.here, hown.child hc, hdir, hitems⟩
  | @file own dir items sub inside name index file h hmod hfile hget ih =>
    obtain ⟨m, hm, hown, rfl, rfl⟩ := ih
    obtain ⟨child, hc⟩ := hdone m hm name sub false hmod (.inr ⟨index, hfile⟩)
    obtain ⟨sub', isInline, hfirst, hbacked⟩ := ht.backed hc
    rw [hmod] at hfirst
    cases hfirst
    cases hbacked with
    | found hfile' hget' _ hitems hdir =>
      rw [hfile] at hfile'
      cases hfile'
      rw [hget] at hget'
      cases hget'
      exact ⟨child, hc.here, hown.child hc, hdir, hitems⟩

/-- A module with the place that it is at. -/
inductive Placed (st : BuildState) (dir : Path) : Nat → Path → Bool → Prop
  | root : Placed st dir 0 dir false
  | child {child parent : Nat} {name : String} {own : Path} {inside : Bool}
      (h : Placed st dir parent own inside) (hchild : ChildNamed st child parent name) :
      Placed st dir child (own.join name.toList) (inside || (st.node child).file.isNone)

theorem Placed.ownDir {dir own : Path} {m : Nat} {inside : Bool} (h : Placed st dir m own inside) :
    OwnDir st dir m own := by
  induction h with
  | root => exact .root
  | child _ hchild ih => exact .child ih hchild

theorem Tree.placed (ht : Tree files root st) {m : Nat} (hm : m < st.modules.length) :
    ∃ own inside, Placed st root.dir m own inside := by
  induction m using Nat.strong_induction_on with
  | h m ih =>
    by_cases hzero : m = 0
    · subst hzero
      exact ⟨_, _, .root⟩
    · obtain ⟨p, hp, name, _, _, hnamed, -⟩ := ht.child m hzero hm
      obtain ⟨own, inside, hplaced⟩ := ih p hp (Nat.lt_trans hp hm)
      exact ⟨_, _, .child hplaced hnamed⟩

theorem Placed.place {own : Path} {m : Nat} {inside : Bool} (ht : Tree files root st)
    (h : Placed st root.dir m own inside) :
    Place files root own (st.dir m) (st.node m).items inside := by
  induction h with
  | root =>
    rw [ht.dir, ht.items]
    exact .root
  | @child child parent name own inside h hchild ih =>
    obtain ⟨sub, isInline, hfirst, hbacked⟩ := ht.backed hchild
    cases hbacked with
    | inlined hfile hitems hdir =>
      rw [hfile, hdir, hitems, Option.isNone_none, Bool.or_true]
      exact ih.inline hfirst
    | found hfind hget hfile hitems hdir =>
      rw [hfile, hdir, hitems, Option.isNone_some, Bool.or_false]
      exact ih.file hfirst hfind hget

/-- A module has one directory of its own. -/
theorem OwnDir.eq {own own' : Path} {m : Nat} (ht : Tree files root st)
    (h : OwnDir st root.dir m own) (h' : OwnDir st root.dir m own') : own = own' := by
  have hzero {p : Nat} {name : String} (hc : ChildNamed st 0 p name) : False := by
    have hunder := hc.under
    rw [ht.top] at hunder
    cases hunder
  induction h generalizing own' with
  | root =>
    cases h' with
    | root => rfl
    | child _ hchild => exact absurd hchild hzero
  | child h hchild ih =>
    cases h' with
    | root => exact absurd hchild hzero
    | child h' hchild' =>
      have hparent := Option.some.inj (hchild.under.symm.trans hchild'.under)
      subst hparent
      rw [ih h', hchild.name_eq hchild']

/-! ## One module for every file -/

theorem Loaded.index_inj (h : Loaded files) {index index' : Nat} {file file' : FileData}
    (hget : files[index]? = some file) (hget' : files[index']? = some file')
    (hid : file.id = file'.id) : index = index' := by
  have hlt := (List.getElem?_eq_some_iff.1 hget).1
  have hlt : index < (files.map (·.id)).length := by
    rw [List.length_map]
    exact (List.getElem?_eq_some_iff.1 hget).1
  refine (List.getElem?_inj hlt h.ids).1 ?_
  rw [List.getElem?_map, List.getElem?_map, hget, hget', Option.map_some, Option.map_some, hid]

theorem OwnDir.cases {dir own : Path} {m : Nat} (h : OwnDir st dir m own) :
    (m = 0 ∧ own = dir) ∨ ∃ parent name above, OwnDir st dir parent above ∧
      ChildNamed st m parent name ∧ own = above.join name.toList := by
  cases h with
  | root => exact .inl ⟨rfl, rfl⟩
  | child h hchild => exact .inr ⟨_, _, _, h, hchild, rfl⟩

variable (hfiles : Loaded files) (hroot : root ∈ files)
include hfiles hroot

theorem Tree.named (ht : Tree files root st) {m : Nat} (hm : m < st.modules.length) :
    Named (st.node m).items := by
  obtain ⟨own, inside, hplaced⟩ := ht.placed hm
  exact ((hplaced.place ht).depth hfiles.names hroot).1

theorem ChildNamed.isName {c p : Nat} {name : String} (ht : Tree files root st)
    (hc : ChildNamed st c p name) : Path.IsName name.toList ∧ name ≠ "mod" := by
  obtain ⟨sub, isInline, hfirst, -⟩ := ht.backed hc
  have hp := Nat.lt_trans (ht.parent_lt hc.here hc.under) hc.here
  exact ((ht.named hfiles hroot hp).sub hfirst).1

theorem OwnDir.depth {own : Path} {m : Nat} (ht : Tree files root st)
    (h : OwnDir st root.dir m own) : root.dir.stack.length ≤ own.stack.length := by
  induction h with
  | root => exact Nat.le_refl _
  | child _ hchild ih =>
    rw [Path.stack_join (hchild.isName hfiles hroot ht).1, List.length_cons]
    exact Nat.le_succ_of_le ih

/-- **Two modules never have the same own directory.** -/
theorem OwnDir.inj {own : Path} {m m' : Nat} (ht : Tree files root st)
    (h : OwnDir st root.dir m own) (h' : OwnDir st root.dir m' own) : m = m' := by
  have habove {p : Nat} {name : String} {own : Path} (hown : OwnDir st root.dir p own) {c : Nat}
      (hc : ChildNamed st c p name) : own.join name.toList ≠ root.dir := by
    intro heq
    have hle := hown.depth hfiles hroot ht
    have hlength := congrArg (fun path => path.stack.length) heq
    simp only [Path.stack_join (hc.isName hfiles hroot ht).1, List.length_cons] at hlength
    omega
  induction h generalizing m' with
  | root =>
    rcases h'.cases with ⟨rfl, -⟩ | ⟨p, name, above, habove', hchild, heq⟩
    · rfl
    · exact absurd heq.symm (habove habove' hchild)
  | @child child parent name own h hchild ih =>
    rcases h'.cases with ⟨rfl, heq⟩ | ⟨p, name', above, habove', hchild', heq⟩
    · exact absurd heq (habove h hchild)
    · obtain ⟨rfl, hname⟩ := Path.join_inj (hchild.isName hfiles hroot ht).1
        (hchild'.isName hfiles hroot ht).1 heq
      obtain rfl := ih habove'
      obtain rfl := String.toList_inj.1 hname
      exact ht.once _ _ _ _ hchild hchild'

/-- Apart from the root, a module that has a file found it outside inline modules. -/
theorem Tree.outside (ht : Tree files root st) {index : Nat} (hapart : FilesApart files index root)
    {m id : Nat} (hne : m ≠ 0) (hm : m < st.modules.length) (hfile : (st.node m).file = some id) :
    ∃ (p : Nat) (name : String) (at' : Nat) (entry : FileData), ChildNamed st m p name ∧
      OwnDir st root.dir p (st.dir p) ∧ findModuleFile files (st.dir p) name = some at' ∧
      at' ≠ index ∧ files[at']? = some entry ∧ entry.id = id := by
  obtain ⟨p, hp, name, sub, isInline, hnamed, hfirst, hbacked⟩ := ht.child m hne hm
  cases hbacked with
  | inlined hnone =>
    rw [hfile] at hnone
    cases hnone
  | @found at' entry hfind hget hentry =>
    obtain ⟨own, inside, hplaced⟩ := ht.placed (Nat.lt_trans hp hm)
    have hplace := hplaced.place ht
    obtain ⟨hroot', hinside⟩ := hapart own _ _ inside name sub hplace hfirst
    have hown : own = st.dir p := by
      cases inside with
      | false => exact (hplace.depth hfiles.names hroot).2
      | true =>
        have hnone := (hinside rfl).1
        rw [hfind] at hnone
        cases hnone
    refine ⟨p, name, at', entry, hnamed, hown ▸ hplaced.ownDir, hfind, ?_, hget, ?_⟩
    · exact fun heq => hroot' (heq ▸ hfind)
    · exact Option.some.inj (hentry.symm.trans hfile)

theorem Tree.oneFileOneModule (ht : Tree files root st)
    (hdone : ∀ m < st.modules.length, Done files st m) (hrecorded : Recorded st) {index : Nat}
    (hget : files[index]? = some root) (hapart : FilesApart files index root) :
    OneFileOneModule root.dir st := by
  have hunique (m : Nat) (hm : m < st.modules.length) (m' : Nat) (hm' : m' < st.modules.length)
      (id : Nat) (hid : (st.node m).file = some id) (hid' : (st.node m').file = some id) :
      m = m' := by
    have hzero {m : Nat} (hne : m ≠ 0) (hm : m < st.modules.length)
        (hid : (st.node m).file = some root.id) : False := by
      obtain ⟨_, _, at', entry, -, -, -, hother, hentry, heq⟩ :=
        ht.outside hfiles hroot hapart hne hm hid
      exact hother (hfiles.index_inj hentry hget heq)
    by_cases hm0 : m = 0 <;> by_cases hm0' : m' = 0
    · exact hm0.trans hm0'.symm
    · subst hm0
      cases ht.file.symm.trans hid
      exact absurd hid' (hzero hm0' hm')
    · subst hm0'
      cases ht.file.symm.trans hid'
      exact absurd hid (hzero hm0 hm)
    · obtain ⟨p, name, at', entry, hc, hown, hfind, -, hentry, heq⟩ :=
        ht.outside hfiles hroot hapart hm0 hm hid
      obtain ⟨p', name', at'', entry', hc', hown', hfind', -, hentry', heq'⟩ :=
        ht.outside hfiles hroot hapart hm0' hm' hid'
      obtain rfl := hfiles.index_inj hentry hentry' (heq.trans heq'.symm)
      obtain ⟨hdir, rfl⟩ := findModuleFile_inj (hc.isName hfiles hroot ht)
        (hc'.isName hfiles hroot ht) hfind hfind'
      obtain rfl := OwnDir.inj hfiles hroot ht hown (hdir ▸ hown')
      exact ht.once _ _ _ _ hc hc'
  refine ⟨hunique, fun file hfile m => ⟨hrecorded.entry file hfile m, ?_⟩, ?_⟩
  · rintro ⟨hm, hid⟩
    obtain ⟨file', hfile', hid', hsome⟩ := hrecorded.used m hm file.id hid
    obtain ⟨i, hi⟩ := List.mem_iff_getElem?.1 hfile
    obtain ⟨i', hi'⟩ := List.mem_iff_getElem?.1 hfile'
    -- Ids are those that were loaded, so the entry that is used is this one.
    obtain ⟨first, hfirst, hloaded⟩ := getElem_loaded ht.loaded hi
    obtain ⟨first', hfirst', hloaded'⟩ := getElem_loaded ht.loaded hi'
    have hids : first.id = first'.id := (congrArg (·.1) hloaded).trans
      (hid'.symm.trans (congrArg (·.1) hloaded').symm)
    obtain rfl := hfiles.index_inj hfirst hfirst' hids
    cases hi.symm.trans hi'
    obtain ⟨m', hm'⟩ := Option.isSome_iff_exists.1 hsome
    obtain ⟨hlt, hfile'⟩ := hrecorded.entry file hfile m' hm'
    rw [hm', hunique m hm m' hlt file.id hid hfile']
  · intro m own name sub hm hown hfirst id
    rw [ht.child_file (hdone m hm) hfirst, fileUnder_loaded ht.loaded]
    obtain ⟨own', inside, hplaced⟩ := ht.placed hm
    obtain rfl := hown.eq ht hplaced.ownDir
    have hplace := hplaced.place ht
    cases inside with
    | false =>
      have hdir : own = st.dir m := (hplace.depth hfiles.names hroot).2
      rw [hdir]
    | true =>
      obtain ⟨hnone, hnone'⟩ := (hapart own _ _ true name sub hplace hfirst).2 rfl
      rw [fileUnder, fileUnder, hnone, hnone']

theorem Tree.filesApart (ht : Tree files root st) (hdone : ∀ m < st.modules.length, Done files st m)
    {index : Nat} (hget : files[index]? = some root) (h : OneFileOneModule root.dir st) :
    FilesApart files index root := by
  intro own dir items inside name sub hplace hfirst
  obtain ⟨hnamed, hdepth⟩ := hplace.depth hfiles.names hroot
  obtain ⟨m, hm, hown, rfl, rfl⟩ := hplace.module ht hdone
  refine ⟨fun hfind => ?_, ?_⟩
  · have hunder := fileUnder_some.2 ⟨index, root, hfind, hget, rfl⟩
    obtain ⟨child, hc, hfile⟩ := (ht.child_file (hdone m hm) hfirst root.id).2 hunder
    have hzero := h.unique child hc.here 0 ht.nonempty root.id hfile ht.file
    subst hzero
    have hunder := hc.under
    rw [ht.top] at hunder
    cases hunder
  · rintro rfl
    have hsame : fileUnder files (st.dir m) name = fileUnder files own name := by
      refine Option.ext fun id => ?_
      rw [← ht.child_file (hdone m hm) hfirst id, h.inside m own name sub hm hown hfirst id,
        fileUnder_loaded ht.loaded]
    -- One file in both directories would have two paths.
    have hboth {index index' : Nat} (hfind : findModuleFile files (st.dir m) name = some index)
        (hfind' : findModuleFile files own name = some index') : index ≠ index' := by
      rintro rfl
      have hname := (hnamed.sub hfirst).1
      have hdir := (findModuleFile_inj hname hname hfind hfind').1
      rw [if_pos rfl, hdir] at hdepth
      exact Nat.lt_irrefl _ hdepth
    have hsome {dir dir' : Path} {index : Nat} (hfind : findModuleFile files dir name = some index)
        (heq : fileUnder files dir name = fileUnder files dir' name) :
        findModuleFile files dir' name = some index := by
      obtain ⟨file, hfile, -⟩ := findModuleFile_some hfind
      rw [fileUnder_some.2 ⟨index, file, hfind, hfile, rfl⟩] at heq
      obtain ⟨index', file', hfind', hfile', hid⟩ := fileUnder_some.1 heq.symm
      rwa [hfiles.index_inj hfile hfile' hid.symm]
    constructor
    · refine Option.eq_none_iff_forall_ne_some.2 fun index hfind => ?_
      exact hboth hfind (hsome hfind hsame) rfl
    · refine Option.eq_none_iff_forall_ne_some.2 fun index hfind => ?_
      exact hboth (hsome hfind hsame.symm) hfind rfl

end

/-- **Files back one module each**, and lie where their modules say, exactly if no file module leads
back to the file of the root and inline modules hold no file modules with a file. -/
theorem buildTree_oneFileOneModule {files : List FileData} (hfiles : Loaded files)
    {root index : Nat} {file : FileData} (hindex : rootFile files root = some index)
    (hget : files[index]? = some file) (bag : DiagBag) :
    (∃ fuel st, buildTree fuel files root bag = some st) ∧
      ∀ fuel st, buildTree fuel files root bag = some st →
        (OneFileOneModule file.dir st ↔ FilesApart files index file) := by
  have hid : file.id = root := by
    obtain ⟨file', hget', hid⟩ := rootFile_some hindex
    cases hget.symm.trans hget'
    exact hid
  have hbuild (fuel : Nat) : buildTree fuel files root bag =
      (Lib.Worklist.drain buildChildren fuel (rooted files root index file bag) [0]).map
        fun st => { st with bag := st.bag ++ unreachableFiles st.files } := by
    simp only [buildTree, hindex, hget, Option.bind_eq_bind, Option.bind_some]
    exact Option.map_eq_bind.symm
  refine ⟨?_, fun fuel st hst => ?_⟩
  · obtain ⟨fuel, st, hdrain⟩ := rooted_ends hget
      (fun file hfile name hname => (hfiles.names file hfile name hname).1) root bag
    refine ⟨fuel, { st with bag := st.bag ++ unreachableFiles st.files }, ?_⟩
    rw [hbuild, hdrain, Option.map_some]
  · rw [hbuild] at hst
    obtain ⟨st, hdrain, rfl⟩ := Option.map_eq_some_iff.1 hst
    have hstanding := Lib.Worklist.drain_invariant (I := Standing files file)
      (fun _ _ _ h => h.round) hdrain (standing_rooted hfiles hget hid bag)
    have hwaiting := hstanding.waiting.bag (st.bag ++ unreachableFiles st.files)
    have hdone (m : Nat) (hm : m < st.modules.length) := hwaiting.done m hm List.not_mem_nil
    have hroot := List.mem_of_getElem? hget
    exact ⟨hwaiting.tree.filesApart hfiles hroot hdone hget,
      hwaiting.tree.oneFileOneModule hfiles hroot hdone hwaiting.recorded hget⟩

/-- `main.al` declares `a`, which has a file. -/
theorem oneFileOneModule_child : ∃ fuel st, buildTree fuel
    (filesOf [("main.al", [fileMod "a"]), ("a.al", [])]) 0 [] = some st ∧
      OneFileOneModule (Path.ofText "/p".toList) st := by
  let files := filesOf [("main.al", [fileMod "a"]), ("a.al", [])]
  let main := files.get ⟨0, by decide⟩
  have hloaded : Loaded files := by
    refine ⟨by decide, by decide, ?_⟩
    unfold Path.IsName
    decide
  have hplace {own dir : Path} {items : List Item} {inside : Bool}
      (h : Place files main own dir items inside) :
      inside = false ∧ (items = [] ∨ dir = Path.ofText "/p".toList ∧ items = [fileMod "a"]) := by
    induction h with
    | root => exact ⟨rfl, .inr ⟨by decide, rfl⟩⟩
    | @inline own dir items sub inside name h hmod ih =>
      rcases ih.2 with rfl | ⟨-, rfl⟩
      · cases hmod
      · simp only [fileMod, firstMod] at hmod
        split at hmod <;> cases hmod
    | @file own dir items sub inside name index file h hmod hfile hget ih =>
      refine ⟨ih.1, .inl ?_⟩
      rcases ih.2 with rfl | ⟨rfl, rfl⟩
      · cases hmod
      · simp only [fileMod, firstMod] at hmod
        split at hmod
        · next heq =>
          subst heq
          have hindex : findModuleFile files (Path.ofText "/p".toList) "a" = some 1 := by decide
          cases hindex.symm.trans hfile
          cases hget
          rfl
        · cases hmod
  have hapart : FilesApart files 0 main := by
    intro own dir items inside name sub h hmod
    obtain ⟨rfl, hitems⟩ := hplace h
    refine ⟨fun hfile => ?_, fun hinside => by cases hinside⟩
    rcases hitems with rfl | ⟨rfl, rfl⟩
    · cases hmod
    · simp only [fileMod, firstMod] at hmod
      split at hmod
      · next heq =>
        subst heq
        exact absurd hfile (by decide)
      · cases hmod
  obtain ⟨⟨fuel, st, hst⟩, hiff⟩ := buildTree_oneFileOneModule hloaded
    (show rootFile files 0 = some 0 by decide) (show files[0]? = some main from rfl) []
  have hdir : main.dir = Path.ofText "/p".toList := by decide
  exact ⟨fuel, st, hst, hdir ▸ (hiff fuel st hst).2 hapart⟩

/-- Two inline modules of `main.al` declare an `x`, and both get `x.al`. -/
theorem inlineSiblings_oneFile : ∃ st, buildTree 8 (filesOf
    [("main.al", [inlineMod "a" [fileMod "x"], inlineMod "b" [fileMod "x"]]), ("x.al", [])]) 0 [] =
      some st ∧ ∀ dir, ¬ OneFileOneModule dir st := by
  have hbuilt : (buildTree 8 (filesOf
      [("main.al", [inlineMod "a" [fileMod "x"], inlineMod "b" [fileMod "x"]]), ("x.al", [])])
      0 []).map (fun st => (st.modules.length, (st.node 3).file, (st.node 4).file)) =
        some (5, some 1, some 1) := by decide
  obtain ⟨st, hst, heq⟩ := Option.map_eq_some_iff.1 hbuilt
  simp only [Prod.mk.injEq] at heq
  obtain ⟨hlength, hfile, hfile'⟩ := heq
  refine ⟨st, hst, fun dir h => ?_⟩
  have hunique := h.unique 3 (by omega) 4 (by omega) 1 hfile hfile'
  cases hunique

end Alcy.Analyzer.BuildTree
