import Alcy.Analyzer.Nominals

/-! # What `check_package` leaves behind

Registration, the pass over the items and the calls of the bodies, one after the other: each runs to
its end on every tree. Every registered nominal is complete afterwards, and its row mirrors its
declaration.
-/
namespace Alcy.Analyzer.Types
open Alcy.Ast Alcy.Diag Alcy.Ir
open Alcy.Analyzer.Resolve (Tree)
open Alcy.Lib.Total (Frame Runs bind_of_eq)

variable {p : Package} {st : CheckState}

/-! ## Items -/

/-- Looking a nominal up gives an entry that has a node. -/
def Started (module : Nat) (name : String) (st : CheckState) : Prop :=
  ∀ e, findNominal st.table.nominals module name = some e →
    ∃ entry, st.table.nominals[e]? = some entry ∧ entry.started = true

/-- Names stay where they are. -/
theorem findNominal_extend {table table' : Table} (h : Extends table table') (module : Nat)
    (name : String) :
    findNominal table'.nominals module name = findNominal table.nominals module name := by
  have hkey : table'.nominals.map (fun entry => (entry.module, entry.item.name)) =
      table.nominals.map (fun entry => (entry.module, entry.item.name)) := by
    refine List.ext_getElem? fun e => ?_
    rw [List.getElem?_map, List.getElem?_map]
    rcases Nat.lt_or_ge e table.nominals.length with he | he
    · obtain ⟨new, hn⟩ := getElem?_of_length h.length (List.getElem?_eq_getElem he)
      have hk := h.kept e _ new (List.getElem?_eq_getElem he) hn
      rw [List.getElem?_eq_getElem he, hn, Option.map_some, Option.map_some, hk.module, hk.item]
    · rw [List.getElem?_eq_none he, List.getElem?_eq_none (h.length ▸ he)]
  have hfind (l : List NominalEntry) : findNominal l module name =
      (l.map fun entry => (entry.module, entry.item.name)).findIdx?
        fun key => key.1 = module && key.2 = name := by
    rw [List.findIdx?_map]
    rfl
  rw [hfind, hfind, hkey]

theorem Started.grows {module : Nat} {name : String} {st st' : CheckState}
    (hg : Grows st.table st'.table) (h : Started module name st) : Started module name st' := by
  intro e he
  rw [findNominal_extend hg.toExtends] at he
  obtain ⟨entry, hentry, hs⟩ := h e he
  obtain ⟨new, hn⟩ := getElem?_of_length hg.length hentry
  rw [(hg.kept e entry new hentry hn).settled hs] at hn
  exact ⟨entry, hn, hs⟩

/-- What a module declares is no part of the table. -/
theorem modifyModule_steps {module : Nat} {f : CheckedModule → CheckedModule}
    (hs : (frame p).inv st) :
    Runs (frame p) (modifyModule module f) st fun _ st' => st'.table = st.table :=
  .of_eq rfl ⟨hs.1, hs.2⟩ (.refl _) rfl

theorem resolveSig_steps {module : Nat} {self : Option TypeIdx} {fn : FnItem}
    (hs : (frame p).inv st) (hself : ∀ i, self = some i → st.table.storage.usable i = true) :
    Runs (frame p) (resolveSig p module self fn) st fun sig st' =>
      ∀ i ∈ sig.params, st'.table.storage.usable i = true := by
  refine (resolveTypes_steps (intern_steps p) _ hs (Nat.le_refl _) hself).bind
    fun params st₁ hs₁ hg₁ hparams => ?_
  have hret : Runs (frame p) (resolveReturn p module self fn.returnType) st₁ fun _ _ => True := by
    unfold resolveReturn
    split
    · exact .pure hs₁ trivial
    · exact (resolveType_steps (intern_steps p) _ hs₁ (Nat.le_refl _)
        fun i hi => hg₁.storage.usable (hself i hi)).mono fun _ _ _ _ _ => trivial
  exact hret.bind fun _ _ hs₂ hg₂ _ =>
    .pure hs₂ fun i hi => hg₂.storage.usable (hparams.usable i hi)

theorem classifyReceiver_eq {first self : TypeIdx} (hu : st.table.storage.usable first = true) :
    ∃ kind, classifyReceiver first self st = some (kind, st) := by
  obtain ⟨node, hnode, hread⟩ := Storage.usable_iff.1 hu
  unfold classifyReceiver
  split
  · exact ⟨_, rfl⟩
  · simp only [hnode, Option.bind_eq_bind, Option.bind_some]
    split
    · next href =>
      have hlt : node.data < st.table.storage.refTypes.length := by
        unfold Storage.readable at hread
        rcases href with href | href <;> simpa [href] using hread
      rw [List.getElem?_eq_getElem hlt, Option.bind_some]
      split <;> exact ⟨_, rfl⟩
    · exact ⟨_, rfl⟩

/-- The receiver is read off the table. -/
theorem receiverOf_eq (st : CheckState) (self : Option TypeIdx) {params : List TypeIdx}
    (hu : ∀ i ∈ params, st.table.storage.usable i = true) :
    ∃ kind, receiverOf self params st = some (kind, st) := by
  unfold receiverOf
  split
  · exact classifyReceiver_eq (hu _ (List.mem_cons_self ..))
  · exact ⟨_, rfl⟩

theorem implSelf_steps {module : Nat} {impl : ImplItem} (hs : (frame p).inv st) :
    Runs (frame p) (implSelf p module impl) st fun self st' =>
      ∀ i, self = some i → st'.table.storage.usable i = true := by
  have hreport {code : Nat} {span : Span} {message : String} {st : CheckState}
      (hs : (frame p).inv st) (hc : code ≠ kAnalyzerRecursiveType) :
      Runs (frame p) (do report code span message; return (none : Option TypeIdx)) st
        fun self st' => ∀ i, self = some i → st'.table.storage.usable i = true :=
    (report_steps hs hc).bind fun _ _ hs' _ _ => .pure hs' (by simp)
  unfold implSelf
  split
  · split
    · exact hreport hs codes_ne_recursive.2.2.1
    · refine (resolveTypePath_steps hs).bind fun target st₁ hs₁ _ _ => ?_
      cases target with
      | none => exact .pure hs₁ (by simp)
      | some target =>
        refine .get ?_
        cases hfind : findNominal st₁.table.nominals target.1 target.2 with
        | none =>
          exact hreport hs₁ codes_ne_recursive.1
        | some e =>
          refine (intern_steps p st₁ e hs₁ (Nat.le_refl _) (findNominal_lt hfind)).bind
            fun idx st₂ hs₂ _ hidx => .pure hs₂ ?_
          rintro i ⟨rfl⟩
          exact hidx.1
  · exact hreport hs codes_ne_recursive.1

theorem processMethod_steps {module : Nat} {self : Option TypeIdx} {method : FnItem}
    (hs : (frame p).inv st) (hself : ∀ i, self = some i → st.table.storage.usable i = true) :
    Runs (frame p) (processMethod p module self method) st fun _ _ => True := by
  refine (resolveSig_steps hs hself).bind fun sig st₁ hs₁ _ hsig => ?_
  refine (modifyModule_steps hs₁).bind fun _ st₂ hs₂ _ htable => ?_
  have hreceiver : Runs (frame p) (receiverOf self sig.params) st₂ fun _ _ => True := by
    obtain ⟨kind, hrun⟩ := receiverOf_eq st₂ self (htable ▸ hsig)
    exact .of_eq hrun hs₂ (.refl _) trivial
  refine hreceiver.bind fun receiver st₃ hs₃ _ _ => ?_
  have htype : Runs (frame p) (selfOrError self) st₃ fun _ _ => True := by
    unfold selfOrError
    split
    · exact .pure hs₃ trivial
    · exact (errorType_steps hs₃).mono fun _ _ _ _ _ => trivial
  exact htype.bind fun _ _ hs₄ _ _ => (modifyModule_steps hs₄).mono fun _ _ _ _ _ => trivial

theorem processNominal_steps {module : Nat} {item : NominalItem} (hs : (frame p).inv st) :
    Runs (frame p) (processNominal p module item) st fun _ st' =>
      Started module item.name st' := by
  refine .get ?_
  cases hfind : findNominal st.table.nominals module item.name with
  | none =>
    refine .pure hs fun e he => ?_
    rw [hfind] at he
    cases he
  | some e =>
    refine (intern_steps p st e hs (Nat.le_refl _) (findNominal_lt hfind)).bind
      fun idx st₁ hs₁ hg₁ hidx => ?_
    refine (modifyModule_steps hs₁).mono fun _ st₂ _ _ htable e' he' => ?_
    rw [htable] at he' ⊢
    rw [findNominal_extend hg₁.toExtends, hfind] at he'
    obtain rfl := Option.some.inj he'
    exact hidx.2

/-- **One item**: it runs to its end, and a declared nominal has its node. -/
theorem processItem_steps {module : Nat} (item : Item) (hs : (frame p).inv st) :
    Runs (frame p) (processItem p module item) st fun _ st' =>
      ∀ nominal, asNominal item = some nominal → Started module nominal.name st' := by
  have hother {st : CheckState} {m : CheckM Unit} (hnone : asNominal item = none)
      (h : Runs (frame p) m st fun _ _ => True) : Runs (frame p) m st fun _ st' =>
        ∀ nominal, asNominal item = some nominal → Started module nominal.name st' :=
    h.mono fun _ _ _ _ _ nominal hn => by rw [hnone] at hn; cases hn
  have hstatic (decl : StaticItem) : Runs (frame p) (processStatic p module decl) st
      fun _ _ => True :=
    (resolveType_steps (intern_steps p) _ hs (Nat.le_refl _) (by simp)).bind fun _ _ hs₁ _ _ =>
      (modifyModule_steps hs₁).mono fun _ _ _ _ _ => trivial
  have hnominal (nominal : NominalItem) (heq : asNominal item = some nominal) :
      Runs (frame p) (processNominal p module nominal) st fun _ st' =>
        ∀ nominal, asNominal item = some nominal → Started module nominal.name st' :=
    (processNominal_steps hs).mono fun _ _ _ _ h other ho => by
      rw [heq] at ho
      exact Option.some.inj ho ▸ h
  cases item with
  | struct decl => exact hnominal _ rfl
  | enum decl => exact hnominal _ rfl
  | fn fn =>
    refine hother rfl ((resolveSig_steps hs (by simp)).bind fun _ _ hs₁ _ _ => ?_)
    exact (modifyModule_steps hs₁).mono fun _ _ _ _ _ => trivial
  | static decl => exact hother rfl (hstatic decl)
  | const decl => exact hother rfl (hstatic decl)
  | impl impl =>
    refine hother rfl ((errorType_steps hs).bind fun _ st₁ hs₁ _ _ => ?_)
    refine (implSelf_steps hs₁).bind fun self st₂ hs₂ _ hself => ?_
    refine (Runs.forM (P := fun _ _ => True) (fun _ _ _ _ _ => trivial)
      (fun method _ st₃ hs₃ hg₃ => processMethod_steps hs₃ fun i hi =>
        hg₃.storage.usable (hself i hi)) hs₂).mono fun _ _ _ _ _ => trivial
  | mod span isPub name items isInline => exact hother rfl (.pure hs trivial)
  | use use => exact hother rfl (.pure hs trivial)

/-- **All items of all modules.** -/
theorem processModules_steps (hs : (frame p).inv st) :
    Runs (frame p) ((List.range p.tree.modules.length).forM (processModule p)) st fun _ st' =>
      ∀ module ∈ List.range p.tree.modules.length, ∀ item ∈ (p.tree.node module).items,
        ∀ nominal, asNominal item = some nominal → Started module nominal.name st' := by
  have hstable {module : Nat} {item : Item} {st st' : CheckState} (hg : Grows st.table st'.table)
      (h : ∀ nominal, asNominal item = some nominal → Started module nominal.name st) :
      ∀ nominal, asNominal item = some nominal → Started module nominal.name st' :=
    fun nominal hn => (h nominal hn).grows hg
  refine Runs.forM (P := fun module st' => ∀ item ∈ (p.tree.node module).items,
    ∀ nominal, asNominal item = some nominal → Started module nominal.name st') ?_ ?_ hs
  · exact fun module st st' hg h item hm => hstable hg (h item hm)
  · intro module _ st₁ hs₁ _
    exact Runs.forM (fun item st st' hg h => hstable hg h)
      (fun item _ st₂ hs₂ _ => processItem_steps item hs₂) hs₁

/-- **What a body does** keeps the table sound. -/
theorem bodyCall_steps (call : BodyCall) (hs : (frame p).inv st) :
    Runs (frame p) (bodyCall p call) st fun _ _ => True := by
  refine .get ?_
  split
  case isFalse => exact .pure hs trivial
  case isTrue hfits =>
    cases call with
    | resolveType module type self =>
      refine (resolveType_steps (intern_steps p) type hs (Nat.le_refl _) ?_).bind
        fun _ _ hs₁ _ _ => .pure hs₁ trivial
      rintro i rfl
      exact hfits
    | internNominal e =>
      exact (intern_steps p st e hs (Nat.le_refl _) (of_decide_eq_true hfits)).bind
        fun _ _ hs₁ _ _ => .pure hs₁ trivial
    | tuple elements =>
      refine (copySeq_steps hs (List.all_eq_true.1 hfits)).bind fun range st₁ hs₁ _ hrange => ?_
      exact (tupleType_steps hs₁ hrange.within).bind fun _ _ hs₂ _ _ => .pure hs₂ trivial
    | reference pointee isMut =>
      exact (referenceType_steps hs).bind fun _ _ hs₁ _ _ => .pure hs₁ trivial
    | never => exact (markerType_steps (.inl rfl) hs).bind fun _ _ hs₁ _ _ => .pure hs₁ trivial
    | error => exact (errorType_steps hs).bind fun _ _ hs₁ _ _ => .pure hs₁ trivial
    | report code span message =>
      exact (report_steps hs (of_decide_eq_true hfits)).mono fun _ _ _ _ _ => trivial

/-! ## Registration -/

/-- The table while nominals are registered: nothing is built yet. -/
structure Registered (p : Package) (table : Table) : Prop where
  storage : table.storage = Storage.initial
  blessed : table.blessed = []
  resolutions : table.resolutions = []
  fresh : ∀ entry ∈ table.nominals, entry.started = false ∧ entry.complete = false
  declared : ∀ entry ∈ table.nominals, entry.module < p.tree.modules.length ∧
    ∃ item ∈ (p.tree.node entry.module).items, asNominal item = some entry.item
  distinct : ∀ (e e' : Nat) (entry entry' : NominalEntry), table.nominals[e]? = some entry →
    table.nominals[e']? = some entry' → entry.module = entry'.module →
    entry.item.name = entry'.item.name → e = e'

/-- Registration only appends entries. -/
def registering (p : Package) : Frame CheckState where
  inv st := Registered p st.table ∧ ∀ d ∈ st.bag, d.code ≠ kAnalyzerRecursiveType
  rel st st' := st.table.nominals <+: st'.table.nominals
  refl _ := List.prefix_rfl
  trans h h' := h.trans h'

/-- The name has an entry in the module. -/
def Known (table : Table) (module : Nat) (name : String) : Prop :=
  ∃ entry ∈ table.nominals, entry.module = module ∧ entry.item.name = name

/-- Names that no declaration can take. -/
def IsReserved (name : String) : Prop := name = "Result" ∨ name = "Option"

theorem mem_of_findNominal {nominals : List NominalEntry} {module e : Nat} {name : String}
    (h : findNominal nominals module name = some e) :
    ∃ entry, nominals[e]? = some entry ∧ entry.module = module ∧ entry.item.name = name := by
  obtain ⟨hlt, hfits, -⟩ := List.findIdx?_eq_some_iff_getElem.1 h
  simp only [Bool.and_eq_true, decide_eq_true_eq] at hfits
  exact ⟨_, List.getElem?_eq_getElem hlt, hfits⟩

theorem getElem?_concat_cases {α : Type} {l : List α} {a b : α} {i : Nat}
    (h : (l ++ [a])[i]? = some b) : l[i]? = some b ∨ (i = l.length ∧ b = a) := by
  rcases Nat.lt_or_ge i l.length with hi | hi
  · rw [List.getElem?_append_left hi] at h
    exact .inl h
  · rw [List.getElem?_append_right hi] at h
    have hlt := (List.getElem?_eq_some_iff.1 h).1
    obtain rfl : i = l.length := by
      rw [List.length_singleton] at hlt
      omega
    rw [Nat.sub_self] at h
    exact .inr ⟨rfl, (Option.some.inj h).symm⟩

theorem registerItem_steps {module : Nat} (hm : module < p.tree.modules.length) {item : Item}
    (hitem : item ∈ (p.tree.node module).items) (hs : (registering p).inv st) :
    Runs (registering p) (registerItem module item) st fun _ st' =>
      ∀ nominal, asNominal item = some nominal → ¬ IsReserved nominal.name →
        Known st'.table module nominal.name := by
  have hreport {code : Nat} {span : Span} {message : String} (hc : code ≠ kAnalyzerRecursiveType) :
      Runs (registering p) (report code span message) st fun _ st' => st'.table = st.table := by
    refine .of_eq rfl ⟨hs.1, fun d hd => ?_⟩ List.prefix_rfl rfl
    rcases List.mem_append.1 hd with hd | hd
    · exact hs.2 d hd
    · obtain rfl := List.mem_singleton.1 hd
      exact hc
  unfold registerItem
  split
  · next hnone => exact .pure hs fun nominal hn => by rw [hnone] at hn; cases hn
  · next nominal hsome =>
    have hthis {P : NominalItem → Prop} (h : P nominal) :
        ∀ other, asNominal item = some other → P other := fun other ho => by
      rw [hsome] at ho
      exact Option.some.inj ho ▸ h
    refine .get ?_
    split
    · next hres =>
      exact (hreport (by decide)).mono fun _ _ _ _ _ => hthis fun hn => absurd hres hn
    split
    · next hdup =>
      obtain ⟨e, he⟩ := Option.isSome_iff_exists.1 hdup
      obtain ⟨entry, hentry, hmodule, hname⟩ := mem_of_findNominal he
      refine (hreport (by decide)).mono fun _ _ _ _ htable => hthis fun _ => ?_
      exact ⟨entry, htable ▸ List.mem_of_getElem? hentry, hmodule, hname⟩
    · next hnew =>
      have hfirst : ∀ entry ∈ st.table.nominals,
          ¬ (entry.module = module ∧ entry.item.name = nominal.name) := by
        intro entry hentry hkey
        refine hnew (List.findIdx?_isSome.trans (List.any_eq_true.2 ⟨entry, hentry, ?_⟩))
        simpa using hkey
      let entry : NominalEntry := ⟨module, nominal, 0, false, false⟩
      have hreg : Registered p
          { st.table with nominals := st.table.nominals ++ [entry] } := by
        refine { hs.1 with fresh := fun other ho => ?_, declared := fun other ho => ?_,
                           distinct := fun i j a b ha hb hmodule hname => ?_ }
        · rcases List.mem_append.1 ho with ho | ho
          · exact hs.1.fresh other ho
          · rw [List.mem_singleton.1 ho]
            exact ⟨rfl, rfl⟩
        · rcases List.mem_append.1 ho with ho | ho
          · exact hs.1.declared other ho
          · rw [List.mem_singleton.1 ho]
            exact ⟨hm, item, hitem, hsome⟩
        · rcases getElem?_concat_cases ha with ha | ⟨hi, rfl⟩
          · rcases getElem?_concat_cases hb with hb | ⟨hj, rfl⟩
            · exact hs.1.distinct i j a b ha hb hmodule hname
            · exact absurd ⟨hmodule, hname⟩ (hfirst a (List.mem_of_getElem? ha))
          · rcases getElem?_concat_cases hb with hb | ⟨hj, rfl⟩
            · exact absurd ⟨hmodule.symm, hname.symm⟩ (hfirst b (List.mem_of_getElem? hb))
            · rw [hi, hj]
      refine .of_eq rfl ⟨hreg, hs.2⟩ (List.prefix_append _ _) (hthis fun _ => ?_)
      exact ⟨entry, List.mem_append_right _ (List.mem_singleton_self _), rfl, rfl⟩

theorem Known.mono {table table' : Table} (h : table.nominals <+: table'.nominals) {module : Nat}
    {name : String} (hk : Known table module name) : Known table' module name := by
  obtain ⟨entry, hm, hrest⟩ := hk
  exact ⟨entry, h.subset hm, hrest⟩

theorem initial_closed : Storage.initial.Closed where
  prims := List.prefix_rfl
  nodes _ hm := .inl hm
  structs _ hm := by cases hm
  variants _ hm := by cases hm
  enums _ hm := by cases hm
  tuples _ hm := by cases hm
  arrays := rfl

/-- **Every nominal of the tree is registered.** -/
theorem registerNominals_steps (p : Package) :
    Runs (registering p) (registerNominals p) .start fun _ st' =>
      ∀ module ∈ List.range p.tree.modules.length, ∀ item ∈ (p.tree.node module).items,
        ∀ nominal, asNominal item = some nominal → ¬ IsReserved nominal.name →
          Known st'.table module nominal.name := by
  have hstart : (registering p).inv .start := by
    refine ⟨⟨rfl, rfl, rfl, ?_, ?_, ?_⟩, ?_⟩
    · intro entry hm
      cases hm
    · intro entry hm
      cases hm
    · intro e e' entry entry' he
      cases he
    · intro d hd
      cases hd
  have hstable {module : Nat} {item : Item} {st st' : CheckState}
      (hg : st.table.nominals <+: st'.table.nominals)
      (h : ∀ nominal, asNominal item = some nominal → ¬ IsReserved nominal.name →
        Known st.table module nominal.name) :
      ∀ nominal, asNominal item = some nominal → ¬ IsReserved nominal.name →
        Known st'.table module nominal.name :=
    fun nominal hn hr => (h nominal hn hr).mono hg
  refine Runs.forM (P := fun module st' => ∀ item ∈ (p.tree.node module).items,
    ∀ nominal, asNominal item = some nominal → ¬ IsReserved nominal.name →
      Known st'.table module nominal.name) ?_ ?_ hstart
  · exact fun module st st' hg h item hm => hstable hg (h item hm)
  · intro module hmodule st₁ hs₁ _
    exact Runs.forM (fun item st st' hg h => hstable hg h) (fun item hitem st₂ hs₂ _ =>
      registerItem_steps (List.mem_range.1 hmodule) hitem hs₂) hs₁

theorem Registered.sound {table : Table} (h : Registered p table) : Sound p table := by
  have hfresh {entry : NominalEntry} (hm : entry ∈ table.nominals) {P : Prop}
      (hs : entry.started = true) : P := by
    rw [(h.fresh entry hm).1] at hs
    cases hs
  refine ⟨by rw [h.storage]; exact initial_closed, ?_, ?_, ?_, ?_, ?_, ?_, ?_⟩
  · exact fun entry hm hs => hfresh hm hs
  · exact fun e e' entry entry' he _ hs => hfresh (List.mem_of_getElem? he) hs
  · intro k hk
    rw [h.storage] at hk
    exact absurd hk (Nat.not_lt_zero k)
  · intro idx node hidx
    rw [h.storage] at hidx ⊢
    refine .inr fun parts hparts part hpart => ?_
    rw [Storage.nodeParts_primitive (List.mem_of_getElem? hidx), Option.some.injEq] at hparts
    rw [← hparts] at hpart
    cases hpart
  · intro entry hm
    rw [h.blessed] at hm
    cases hm
  · intro entry hm hc
    rw [(h.fresh entry hm).2] at hc
    cases hc
  · intro r hm
    rw [h.resolutions] at hm
    cases hm

/-! ## The table after the items and the bodies -/

/-- What the checker leaves behind before it looks for recursive types. -/
structure Checked (p : Package) (table : Table) : Prop where
  sound : Sound p table
  complete : ∀ entry ∈ table.nominals, entry.complete = true
  declared : ∀ entry ∈ table.nominals, entry.module < p.tree.modules.length ∧
    ∃ item ∈ (p.tree.node entry.module).items, asNominal item = some entry.item
  known : ∀ module < p.tree.modules.length, ∀ item ∈ (p.tree.node module).items,
    ∀ nominal, asNominal item = some nominal → ¬ IsReserved nominal.name →
      Known table module nominal.name

/-- **The passes run to their end on every tree**, and every nominal is complete. -/
theorem checkItems_checked (p : Package) (calls : List BodyCall) :
    ∃ st, checkItems p calls .start = some ((), st) ∧ Checked p st.table ∧
      ∀ d ∈ st.bag, d.code ≠ kAnalyzerRecursiveType := by
  obtain ⟨_, st₁, hrun₁, hs₁, -, hknown⟩ := registerNominals_steps p
  have hsound₁ : (frame p).inv st₁ := ⟨hs₁.1.sound, hs₁.2⟩
  obtain ⟨_, st₂, hrun₂, hs₂, hg₂, hstarted⟩ := processModules_steps hsound₁
  obtain ⟨_, st₃, hrun₃, hs₃, hg₃, -⟩ := Runs.forM (P := fun _ _ => True) (l := calls)
    (fun _ _ _ _ _ => trivial) (fun call _ _ hs _ => bodyCall_steps call hs) hs₂
  have hg : Grows st₁.table st₃.table := hg₂.trans hg₃
  refine ⟨st₃, ?_, ⟨hs₃.1, ?_, ?_, ?_⟩, hs₃.2⟩
  · unfold checkItems
    rw [bind_of_eq hrun₁, bind_of_eq hrun₂, hrun₃]
  · intro entry hm
    obtain ⟨e, he⟩ := List.mem_iff_getElem?.1 hm
    obtain ⟨old, hold⟩ := getElem?_of_length hg.length.symm he
    have hkept := hg.kept e old entry hold he
    obtain ⟨hlt, item, hitem, hnominal⟩ := hs₁.1.declared old (List.mem_of_getElem? hold)
    -- its own declaration leads back to it
    obtain ⟨e', hfind⟩ : ∃ e', findNominal st₁.table.nominals old.module old.item.name = some e' :=
      Option.isSome_iff_exists.1 (List.findIdx?_isSome.trans
        (List.any_eq_true.2 ⟨old, List.mem_of_getElem? hold, by simp⟩))
    obtain ⟨other, hother, hmodule, hname⟩ := mem_of_findNominal hfind
    obtain rfl := hs₁.1.distinct e' e other old hother hold hmodule hname
    have hfind₂ : findNominal st₂.table.nominals old.module old.item.name = some e' := by
      rw [findNominal_extend hg₂.toExtends, hfind]
    obtain ⟨mid, hmid, hst⟩ := hstarted old.module (List.mem_range.2 hlt) item hitem old.item
      hnominal e' hfind₂
    have hentry : entry.started = true := by
      rw [(hg₃.kept e' mid entry hmid he).settled hst]
      exact hst
    refine (hg.completed e' old entry hold he hentry).resolve_left fun hs => ?_
    rw [(hs₁.1.fresh old (List.mem_of_getElem? hold)).1] at hs
    cases hs
  · intro entry hm
    obtain ⟨e, he⟩ := List.mem_iff_getElem?.1 hm
    obtain ⟨old, hold⟩ := getElem?_of_length hg.length.symm he
    have hkept := hg.kept e old entry hold he
    rw [hkept.module, hkept.item]
    exact hs₁.1.declared old (List.mem_of_getElem? hold)
  · intro module hlt item hitem nominal hnominal hres
    obtain ⟨entry, hm, hmodule, hname⟩ :=
      hknown module (List.mem_range.2 hlt) item hitem nominal hnominal hres
    obtain ⟨e, he⟩ := List.mem_iff_getElem?.1 hm
    obtain ⟨new, hnew⟩ := getElem?_of_length hg.length he
    have hkept := hg.kept e entry new he hnew
    exact ⟨new, List.mem_of_getElem? hnew, hkept.module.trans hmodule, by rw [hkept.item, hname]⟩

end Alcy.Analyzer.Types
