import Alcy.Analyzer.Sharing
import Alcy.Analyzer.Layout
import Alcy.Analyzer.Bodies

/-! # Interning over a whole package

`intern_nominal`, the items and the calls of the bodies keep the history true: at the end two calls
for the same type got the same index when, and only when, no tuple with an element is in the type.
-/
namespace Alcy.Analyzer.Types
open Alcy.Ast Alcy.Diag Alcy.Ir
open Alcy.Analyzer.Bodies (onlyRoot fnOf pathTo reported)
open Alcy.Lib.Total (Frame Runs bind_of_eq)

variable {p : Package} {known : TypeIdx → Prop} {n : Nat} {table table' : Table} {m : Meaning}
  {idx : TypeIdx} {st : CheckState}

/-! ## Members -/

theorem enumVariant_shares {name : StringPoolId} {fields : IdxRange}
    (hs : (sharing p known n).inv st) (hw : fields.Within st.table.storage.types.length) :
    Runs (sharing p known n) (build (StorageBuilder.enumVariant name fields)) st fun idx st' =>
      idx = st.table.storage.enumVariantTypes.length ∧
      st'.table.storage.enumVariantTypes.length = idx + 1 := by
  refine (build_share hs (enumVariant_steps hs.1 hw) fun a s hrun he => ?_).mono
    fun _ _ _ _ h => ⟨h.1.1, h.1.2.1⟩
  cases hrun
  exact supplies_same rfl rfl rfl (hs.2.1.rows.append he (List.append_nil _).symm nofun)

/-- The payloads of the variants are types of the table that may be copied. -/
def PayloadsOpen (known : TypeIdx → Prop) (n : Nat) (st : CheckState) (variants : List EnumVariant)
    (payloads : List (List TypeIdx)) : Prop :=
  List.Forall₂ (fun _ payload => ∀ i ∈ payload, st.table.storage.usable i = true ∧
    (n ≤ i ∨ Shared known st.table i)) variants payloads

theorem fillVariants_shares : ∀ {variants : List EnumVariant} {payloads : List (List TypeIdx)}
    {seq : SeqBuilder} {st : CheckState}, (sharing p known n).inv st →
    PayloadsOpen known n st variants payloads → seq.Next st.table.storage.enumVariantTypes.length →
    Runs (sharing p known n) (fillVariants p variants payloads seq) st fun _ _ => True := by
  intro variants
  induction variants with
  | nil =>
    intro payloads seq st hs hu _
    cases hu
    exact .pure hs trivial
  | cons variant variants ih =>
    intro payloads seq st hs hu hseq
    cases hu with
    | cons hfirst hrest =>
      refine (copySeq_shares hs (fun i hi => (hfirst i hi).1) fun i hi => (hfirst i hi).2).bind
        fun range st₁ hs₁ ⟨hg₁, hmoved₁⟩ hrange => ?_
      obtain ⟨hwithin, -, -, -, hsame⟩ := hrange
      refine (enumVariant_shares hs₁ hwithin).bind
        fun idx st₂ hs₂ ⟨hg₂, hmoved₂⟩ ⟨hidx, hlen⟩ => ?_
      have hlast : idx = st.table.storage.enumVariantTypes.length := by rw [hidx, hsame]
      obtain ⟨seq₁, hpush, hnext, -⟩ := hseq.push
      refine .lift (hlast ▸ hpush) (ih hs₂ (hrest.imp fun _ _ h i hi => ?_) ?_)
      · exact (h i hi).imp (hg₁.trans hg₂).storage.usable fun hopen =>
          hopen.imp id fun hshared => hshared.moved (hmoved₁.trans hmoved₂)
      · rw [hlen, hlast]
        exact hnext

theorem members_shares {intern : Nat → CheckM TypeIdx} {fuel : Nat} (hi : Interns p intern fuel)
    (hnames : Names p intern fuel) (module : Nat) (item : NominalItem)
    (hs : (sharing p (Given none) n).inv st) (hf : unstarted st.table.nominals ≤ fuel)
    (hn : n ≤ st.table.storage.types.length) :
    Runs (sharing p (Given none) n) (members p intern module item) st fun _ _ => True := by
  cases item with
  | struct decl =>
    refine (resolveTypes_shares hi hnames _ hs hf nofun hn).bind fun idxs st₁ hs₁ _ hidxs => ?_
    exact (copySeq_shares hs₁ hidxs.2.1 (shares_of_mem hidxs.1)).mono fun _ _ _ _ _ => trivial
  | enum decl =>
    have hpayloads : Runs (sharing p (Given none) n) (decl.variants.mapM fun variant =>
        resolveTypes p intern module none variant.fields) st fun payloads st' =>
        PayloadsOpen (Given none) n st' decl.variants payloads := by
      refine Runs.mapM (F := sharing p (Given none) n)
        (P := fun _ payload st' => ∀ i ∈ payload, st'.table.storage.usable i = true ∧
          (n ≤ i ∨ Shared (Given none) st'.table i))
        (fun _ _ _ _ hr h i hi => ?_) (fun variant _ st₁ hs₁ hr₁ => ?_) hs
      · exact (h i hi).imp hr.1.storage.usable fun hopen =>
          hopen.imp id fun hshared => hshared.moved hr.2
      · exact (resolveTypes_shares hi hnames variant.fields hs₁
          (Nat.le_trans hr₁.1.unstarted_le hf) nofun (Nat.le_trans hn hr₁.2.length)).mono
            fun _ _ _ _ h i hi => ⟨h.2.1 i hi, shares_of_mem h.1 i hi⟩
    refine hpayloads.bind fun payloads st₁ hs₁ _ hp => ?_
    exact (fillVariants_shares hs₁ hp (.inl rfl)).bind fun _ _ hs₂ _ _ => .pure hs₂ trivial

/-! ## `intern_nominal` -/

/-- What a table needs to have in common with another one for its types to have the same indexes. -/
theorem Interned.congr (htypes : table'.storage.types = table.storage.types)
    (hrefs : table'.storage.refTypes = table.storage.refTypes)
    (htuples : table'.storage.tupleTypes = table.storage.tupleTypes)
    (hblessed : table'.blessed = table.blessed)
    (hnominals : ∀ (e : Nat) (entry : NominalEntry), table.nominals[e]? = some entry →
      entry.started = true → ∃ entry', table'.nominals[e]? = some entry' ∧
        entry'.started = true ∧ entry'.type = entry.type)
    (h : Interned known table m idx) : Interned known table' m idx := by
  have hscan (fits : TypeNode → Bool) :
      StorageBuilder.scan table'.storage fits = StorageBuilder.scan table.storage fits := by
    unfold StorageBuilder.scan
    rw [htypes]
  induction h with
  | node h => exact .node h
  | marker htag h => exact .marker htag ((hscan _).trans h)
  | @nominal e entry h hs =>
    obtain ⟨entry', h', hs', htype⟩ := hnominals e entry h hs
    rw [← htype]
    exact .nominal h' hs'
  | empty h =>
    refine .empty ?_
    unfold tupleSlot at h ⊢
    rw [hscan, htuples]
    exact h
  | ref _ h ih =>
    refine .ref ih ?_
    unfold refSlot at h ⊢
    rw [hscan, hrefs]
    exact h
  | option _ h ih => exact .option ih (hblessed ▸ h)
  | result _ _ h ih₁ ih₂ => exact .result ih₁ ih₂ (hblessed ▸ h)

/-- **Filling a row moves no type.** -/
theorem Filled.interned {e : Nat} {entry : NominalEntry} {node : TypeNode}
    (h : Filled p table table' e entry node) :
    Interned known table' m idx ↔ Interned known table m idx := by
  have hlen : table'.nominals.length = table.nominals.length := by
    rw [h.nominals, List.length_modify]
  constructor
  · refine Interned.congr h.storage.types.symm h.storage.refs.symm h.storage.tuples.symm
      h.blessed.symm fun e' new hnew hs => ?_
    obtain ⟨old, hold, htype, hstarted, -⟩ := h.entry hnew
    exact ⟨old, hold, hstarted ▸ hs, htype.symm⟩
  · refine Interned.congr h.storage.types h.storage.refs h.storage.tuples h.blessed
      fun e' old hold hs => ?_
    obtain ⟨new, hnew⟩ := getElem?_of_length hlen hold
    obtain ⟨old', hold', htype, hstarted, -⟩ := h.entry hnew
    obtain rfl : old = old' := Option.some.inj (hold.symm.trans hold')
    exact ⟨new, hnew, hstarted ▸ hs, htype⟩

theorem Filled.moved {e : Nat} {entry : NominalEntry} {node : TypeNode}
    (h : Filled p table table' e entry node) : Moved known n table table' where
  types := h.storage.types ▸ List.prefix_rfl
  kept _ _ _ hm := h.interned.2 hm
  old _ _ _ _ hm := h.interned.1 hm
  refs _ hrow := .inl (h.storage.refs ▸ hrow)
  args _ hentry := .inl (h.blessed ▸ hentry)
  slots _ hrow := .inl (h.storage.tuples ▸ hrow)
  copies _ _ hcopy _ hidx heq := absurd (h.storage.types ▸ heq) (no_copy hcopy hidx)

theorem Filled.tidy {e : Nat} {entry : NominalEntry} {node : TypeNode}
    (h : Filled p table table' e entry node) (ht : Tidy table) : Tidy table' where
  base := h.storage.types ▸ ht.base
  rows := by
    unfold Rowed
    rw [h.storage.types, h.storage.readable]
    exact ht.rows
  refs := by
    rw [h.storage.types, h.storage.refs]
    exact ht.refs
  args := by
    rw [h.storage.types, h.blessed]
    exact ht.args
  below := by
    rw [h.storage.types, h.storage.refs]
    exact ht.below
  slots := by
    rw [h.storage.tuples]
    exact ht.slots
  distinct := by
    refine ⟨?_, ?_⟩ <;> rw [h.blessed, h.storage.types]
    · intro new hnew hs
      obtain ⟨e', hnew⟩ := List.mem_iff_getElem?.1 hnew
      obtain ⟨old, hold, htype, hstarted, -⟩ := h.entry hnew
      rw [htype]
      exact ht.distinct.apart old (List.mem_of_getElem? hold) (hstarted ▸ hs)
    · exact ht.distinct.instances

/-- Told of the same declarations, the history stays true. -/
theorem Filled.told {e : Nat} {entry : NominalEntry} {node : TypeNode}
    (h : Filled p table table' e entry node)
    (hnames : declared p table'.nominals = declared p table.nominals) (ht : Told p table) :
    Told p table' := by
  have hmeaning (r : Resolution) : r.meaning p table'.nominals = r.meaning p table.nominals := by
    unfold Resolution.meaning
    rw [hnames]
  refine ⟨fun r hr hfree => ?_, ?_, fun r hr => ?_, fun r hr hfree => ?_, fun r hr => ?_, ?_⟩
  · rw [h.resolutions] at hr
    rw [hmeaning] at hfree ⊢
    exact h.interned.2 (ht.shared r hr hfree)
  · rw [h.resolutions]
    exact ht.fresh.imp fun {r r'} hlt hfree => hlt (hmeaning r' ▸ hfree)
  · obtain ⟨node, hnode, hread⟩ := Storage.usable_iff.1 (ht.usable r (h.resolutions ▸ hr))
    exact Storage.usable_iff.2 ⟨node, h.storage.types ▸ hnode, h.storage.readable ▸ hread⟩
  · unfold First
    rw [h.storage.types]
    exact ht.first r (h.resolutions ▸ hr) (hmeaning r ▸ hfree)
  · have hbuilt := ht.built r (h.resolutions ▸ hr)
    unfold PartsMade at hbuilt ⊢
    rw [h.storage.types, h.storage.refs, h.blessed, h.resolutions]
    exact hbuilt
  · rw [h.resolutions]
    refine ht.apart.imp fun {r r'} hap => ?_
    unfold Apart at hap ⊢
    rw [hmeaning, h.storage.types, h.storage.refs, h.storage.tuples]
    exact hap

theorem reserveNominal_refs {s s' : Storage} {item : NominalItem}
    (h : reserveNominal p item s = some (idx, s')) :
    s'.refTypes = s.refTypes ∧ s'.tupleTypes = s.tupleTypes := by
  cases item <;> cases h <;> exact ⟨rfl, rfl⟩

theorem ReservedRow.readable {s s' : Storage} {item : NominalItem} {k : Nat}
    (h : ReservedRow p s s' k item) : s'.readable ⟨item.tag, k⟩ = true := by
  cases item with
  | struct decl => exact decide_eq_true (List.getElem?_eq_some_iff.1 h.2).1
  | enum decl => exact decide_eq_true (List.getElem?_eq_some_iff.1 h.2).1

/-- The node of a reservation is no instance of `Result` or `Option`. -/
theorem startedTable_distinct {e k : Nat} {s : Storage} {item : NominalItem} (hs : Sound p table)
    (ht : Tidy table) (hr : Reserved p table.storage s item k) :
    Distinct (startedTable table e s) := by
  have hinst {inst : BlessedEntry} (h : inst ∈ table.blessed) :
      s.types[inst.type]? = table.storage.types[inst.type]? :=
    getElem?_longer hr.extend.types (hs.instance_lt h)
  refine ⟨fun new hnew hstarted inst hmem => ?_, ht.distinct.instances.imp_of_mem ?_⟩
  · show s.types[new.type]? ≠ s.types[inst.type]?
    rw [hinst hmem]
    obtain ⟨e', hnew⟩ := List.mem_iff_getElem?.1 hnew
    rcases getElem?_modify_cases hnew with ⟨-, old, -, rfl⟩ | ⟨-, hold⟩
    · show s.types[table.storage.types.length]? ≠ _
      rw [hr.types, List.getElem?_concat_length]
      exact fun heq => hr.fresh (List.mem_of_getElem? heq.symm)
    · have hold := List.mem_of_getElem? hold
      rw [getElem?_longer hr.extend.types (hs.started_lt hold hstarted)]
      exact ht.distinct.apart new hold hstarted inst hmem
  · intro inst inst' hmem hmem' hne
    show s.types[inst.type]? ≠ s.types[inst'.type]?
    rw [hinst hmem, hinst hmem']
    exact hne

/-- **A reservation starts a nominal at a new node.** -/
theorem startedTable_shares {e k : Nat} {entry : NominalEntry} {s : Storage} (hs : Sound p table)
    (ht : Tidy table)
    (hreserve : reserveNominal p entry.item table.storage = some (table.storage.types.length, s))
    (hr : Reserved p table.storage s entry.item k)
    (hext : Extends table (startedTable table e s)) :
    Tidy (startedTable table e s) ∧ Moved known n table (startedTable table e s) := by
  obtain ⟨hrefs, htuples⟩ := reserveNominal_refs hreserve
  have hadds : Adds known n table (startedTable table e s) := { hext with
    started := fun e' old new ho hn hs => by
      rcases getElem?_modify_cases hn with ⟨rfl, a, ha, rfl⟩ | ⟨-, ho'⟩
      · exact .inr (Nat.le_refl _)
      · exact .inl (Option.some.inj (ho.symm.trans ho') ▸ hs)
    instances := fun _ h => .inl h
    rows := ht.rows.append hext.storage hr.types fun node hnode =>
      List.mem_singleton.1 hnode ▸ hr.row.readable
    refs := fun row hrow => .inl (hrefs ▸ hrow)
    args := fun _ h => .inl h
    slots := fun row hrow => .inl (htuples ▸ hrow)
    copies := fun copy idx hcopy hbase hidx heq => by
      refine absurd (hr.types ▸ heq) (no_copy_pushed (fun old hold hsame => ?_) hcopy hbase hidx)
      exact hr.fresh (hsame ▸ List.mem_of_mem_drop hold)
    distinct := startedTable_distinct hs ht hr }
  exact ⟨hadds.tidy ht, hadds.moved ht⟩

theorem internFresh_shares {intern : Nat → CheckM TypeIdx} {fuel : Nat} (hi : Interns p intern fuel)
    (hnames : Names p intern fuel) {e : Nat} {entry : NominalEntry}
    (hs : (sharing p (Given none) n).inv st) (he : st.table.nominals[e]? = some entry)
    (hnew : entry.started = false) (hf : unstarted st.table.nominals ≤ fuel + 1)
    (hn : n ≤ st.table.storage.types.length) :
    Runs (sharing p (Given none) n) (internFresh p intern e entry) st fun idx st' =>
      Interned (Given none) st'.table (.nominal e) idx := by
  obtain ⟨k, s₁, hreserve, hr, hs₁, hext₁, haround⟩ := internFresh_around intern hs.1 he hnew
  obtain ⟨htidy₁, hmoved₁⟩ : Tidy (startedTable st.table e s₁) ∧
      Moved (Given none) n st.table (startedTable st.table e s₁) :=
    startedTable_shares hs.1.1 hs.2.1 hreserve hr hext₁
  have hf₁ := unstarted_started (s := s₁) he hnew hf
  have hmembers := members_shares hi hnames entry.module entry.item
    ⟨hs₁, htidy₁, hs.2.2.extend hs.1.1 hext₁ hmoved₁ rfl⟩ hf₁ (Nat.le_trans hn hmoved₁.length)
  obtain ⟨range, st₂, hrun₂, hs₂, ⟨hg₂, hmoved₂⟩, -, hm⟩ :=
    hmembers.and (members_steps hi entry.module entry.item hs₁ hf₁)
  obtain ⟨st₃, hrun, hs₃, hg, hfilled⟩ := haround range st₂ hrun₂ hs₂.1 hg₂ hm
  have hdeclared : declared p st₃.table.nominals = declared p st₂.table.nominals := by
    rw [declared_extend hg.toExtends, declared_extend hg₂.toExtends, declared_extend hext₁]
  refine ⟨_, st₃, hrun, ⟨hs₃, hfilled.tidy hs₂.2.1, hfilled.told hdeclared hs₂.2.2⟩,
    ⟨hg, (hmoved₁.trans hmoved₂).trans hfilled.moved⟩, ?_⟩
  exact .nominal hfilled.complete hfilled.started

/-- **A nominal has one index**, whoever asks for it first. -/
theorem internNominal_shares (p : Package) (fuel : Nat) :
    Names p (internNominal p fuel) fuel := by
  have hknown {fuel e n : Nat} {st : CheckState} {entry : NominalEntry}
      (hs : (sharing p (Given none) n).inv st) (he : st.table.nominals[e]? = some entry)
      (hstarted : entry.started = true) :
      Runs (sharing p (Given none) n) (internNominal p fuel e) st fun idx st' =>
        Interned (Given none) st'.table (.nominal e) idx :=
    .of_eq (internNominal_started he hstarted) hs ((sharing p (Given none) n).refl st)
      (.nominal he hstarted)
  induction fuel with
  | zero =>
    intro st e n hs hf he _
    refine hknown hs (List.getElem?_eq_getElem he) ?_
    by_contra hn
    have hpos : 0 < unstarted st.table.nominals :=
      List.countP_pos_iff.2 ⟨_, List.getElem_mem he, by simpa using hn⟩
    omega
  | succ fuel ih =>
    intro st e n hs hf he hn
    have hentry := List.getElem?_eq_getElem he
    cases hstarted : st.table.nominals[e].started with
    | true => exact hknown hs hentry hstarted
    | false =>
      obtain ⟨idx, st', hrun, hrest⟩ :=
        internFresh_shares (internNominal_steps p fuel) ih hs hentry hstarted hf hn
      refine ⟨idx, st', ?_, hrest⟩
      rw [internNominal_fresh hentry hstarted (incomplete_of_unstarted hs.1.1 hentry hstarted)]
      exact hrun

theorem intern_shares (p : Package) {fuel : Nat} : Names p (intern p) fuel := by
  intro st e n hs _ he hn
  exact .get (internNominal_shares p _ st e n hs List.countP_le_length he hn)

/-! ## Items -/

/-- The frame of a call at the top: any index may be given, and any type may be pointed to. -/
def atTop (p : Package) : Frame CheckState := sharing p (fun _ => True) 0

theorem atTop_of {α : Type} {m : CheckM α} {Q : α → CheckState → Prop}
    (h : Runs (sharing p known n) m st Q) : Runs (atTop p) m st Q :=
  (widened (Nat.zero_le n) (fun _ _ => trivial) h).mono fun _ _ _ _ h => h.1

theorem resolveType_atTop {module : Nat} {self : Option TypeIdx} (type : Ty)
    (hs : (atTop p).inv st) (hself : ∀ i, self = some i → st.table.storage.usable i = true) :
    Runs (atTop p) (resolveType p (intern p) module self type) st fun _ _ => True :=
  (atTop_of (n := 0) (resolveType_shares (intern_steps p) (intern_shares p) type hs (Nat.le_refl _)
    hself (Nat.zero_le _))).mono fun _ _ _ _ _ => trivial

theorem intern_atTop {e : Nat} (hs : (atTop p).inv st) (he : e < st.table.nominals.length) :
    Runs (atTop p) (intern p e) st fun idx st' => st'.table.storage.usable idx = true :=
  ((atTop_of (intern_shares p st e 0 hs (Nat.le_refl _) he (Nat.zero_le _))).and
    (intern_steps p st e hs.1 (Nat.le_refl _) he)).mono fun _ _ _ _ h => h.2.1

theorem modifyModule_atTop {module : Nat} {f : CheckedModule → CheckedModule}
    (hs : (atTop p).inv st) :
    Runs (atTop p) (modifyModule module f) st fun _ st' => st'.table = st.table :=
  share_same hs (modifyModule_steps hs.1)

theorem resolveSig_atTop {module : Nat} {self : Option TypeIdx} {fn : FnItem}
    (hs : (atTop p).inv st) (hself : ∀ i, self = some i → st.table.storage.usable i = true) :
    Runs (atTop p) (resolveSig p module self fn) st fun sig st' =>
      ∀ i ∈ sig.params, st'.table.storage.usable i = true := by
  have hparams : Runs (atTop p)
      (resolveTypes p (intern p) module self (fn.params.map (·.type))) st fun _ _ => True :=
    (atTop_of (n := 0) (resolveTypes_shares (intern_steps p) (intern_shares p) _ hs (Nat.le_refl _)
      hself (Nat.zero_le _))).mono fun _ _ _ _ _ => trivial
  have hrun : Runs (atTop p) (resolveSig p module self fn) st fun _ _ => True := by
    refine hparams.bind fun params st₁ hs₁ hr₁ _ => ?_
    have hret : Runs (atTop p) (resolveReturn p module self fn.returnType) st₁ fun _ _ => True := by
      unfold resolveReturn
      split
      · exact .pure hs₁ trivial
      · exact resolveType_atTop _ hs₁ fun i hi => hr₁.1.storage.usable (hself i hi)
    exact hret.bind fun _ _ hs₂ _ _ => .pure hs₂ trivial
  exact (hrun.and (resolveSig_steps hs.1 hself)).mono fun _ _ _ _ h => h.2

theorem implSelf_atTop {module : Nat} {impl : ImplItem} (hs : (atTop p).inv st) :
    Runs (atTop p) (implSelf p module impl) st fun self st' =>
      ∀ i, self = some i → st'.table.storage.usable i = true := by
  have hreport {code : Nat} {span : Span} {message : String} {st : CheckState}
      (hs : (atTop p).inv st) (hc : code ≠ kAnalyzerRecursiveType) : Runs (atTop p)
      (do report code span message; return (none : Option TypeIdx)) st fun _ _ => True :=
    Runs.bind (report_shares hs hc) fun _ _ hs' _ _ => .pure hs' trivial
  have hrun : Runs (atTop p) (implSelf p module impl) st fun _ _ => True := by
    unfold implSelf
    split
    · split
      · exact hreport hs codes_ne_recursive.2.2.1
      · refine Runs.bind (resolveTypePath_shares hs) fun target st₁ hs₁ _ _ => ?_
        cases target with
        | none => exact .pure hs₁ trivial
        | some target =>
          refine .get ?_
          cases hfind : findNominal st₁.table.nominals target.1 target.2 with
          | none => exact hreport hs₁ codes_ne_recursive.1
          | some e =>
            exact (intern_atTop hs₁ (findNominal_lt hfind)).bind
              fun _ _ hs₂ _ _ => .pure hs₂ trivial
    · exact hreport hs codes_ne_recursive.1
  exact (hrun.and (implSelf_steps hs.1)).mono fun _ _ _ _ h => h.2

theorem processMethod_atTop {module : Nat} {self : Option TypeIdx} {method : FnItem}
    (hs : (atTop p).inv st) (hself : ∀ i, self = some i → st.table.storage.usable i = true) :
    Runs (atTop p) (processMethod p module self method) st fun _ _ => True := by
  refine (resolveSig_atTop hs hself).bind fun sig st₁ hs₁ _ hsig => ?_
  refine (modifyModule_atTop hs₁).bind fun _ st₂ hs₂ _ htable => ?_
  have hreceiver : Runs (atTop p) (receiverOf self sig.params) st₂ fun _ st' =>
      st'.table = st₂.table := by
    obtain ⟨kind, hrun⟩ := receiverOf_eq st₂ self (htable ▸ hsig)
    exact share_same hs₂ (.of_eq hrun hs₂.1 (.refl _) rfl)
  refine hreceiver.bind fun receiver st₃ hs₃ _ _ => ?_
  have htype : Runs (atTop p) (selfOrError self) st₃ fun _ _ => True := by
    unfold selfOrError
    split
    · exact .pure hs₃ trivial
    · exact (atTop_of (errorType_shares hs₃)).mono fun _ _ _ _ _ => trivial
  exact htype.bind fun _ _ hs₄ _ _ => (modifyModule_atTop hs₄).mono fun _ _ _ _ _ => trivial

theorem processItem_atTop {module : Nat} (item : Item) (hs : (atTop p).inv st) :
    Runs (atTop p) (processItem p module item) st fun _ _ => True := by
  have hstatic (decl : StaticItem) : Runs (atTop p) (processStatic p module decl) st
      fun _ _ => True :=
    (resolveType_atTop _ hs (by simp)).bind fun _ _ hs₁ _ _ =>
      (modifyModule_atTop hs₁).mono fun _ _ _ _ _ => trivial
  have hnominal (nominal : NominalItem) : Runs (atTop p) (processNominal p module nominal) st
      fun _ _ => True := by
    refine .get ?_
    cases hfind : findNominal st.table.nominals module nominal.name with
    | none => exact .pure hs trivial
    | some e =>
      exact (intern_atTop hs (findNominal_lt hfind)).bind fun _ _ hs₁ _ _ =>
        (modifyModule_atTop hs₁).mono fun _ _ _ _ _ => trivial
  cases item with
  | struct decl => exact hnominal _
  | enum decl => exact hnominal _
  | fn fn =>
    exact (resolveSig_atTop hs (by simp)).bind fun _ _ hs₁ _ _ =>
      (modifyModule_atTop hs₁).mono fun _ _ _ _ _ => trivial
  | static decl => exact hstatic decl
  | const decl => exact hstatic decl
  | impl impl =>
    refine (atTop_of (errorType_shares hs)).bind fun _ st₁ hs₁ _ _ => ?_
    refine (implSelf_atTop hs₁).bind fun self st₂ hs₂ _ hself => ?_
    exact (Runs.forM (P := fun _ _ => True) (fun _ _ _ _ _ => trivial)
      (fun method _ st₃ hs₃ hr₃ => processMethod_atTop hs₃ fun i hi =>
        hr₃.1.storage.usable (hself i hi)) hs₂).mono fun _ _ _ _ _ => trivial
  | mod span isPub name items isInline => exact .pure hs trivial
  | use use => exact .pure hs trivial

theorem processModules_atTop (hs : (atTop p).inv st) :
    Runs (atTop p) ((List.range p.tree.modules.length).forM (processModule p)) st
      fun _ _ => True := by
  refine (Runs.forM (P := fun _ _ => True) (fun _ _ _ _ _ => trivial) (fun module _ st₁ hs₁ _ => ?_)
    hs).mono fun _ _ _ _ _ => trivial
  exact (Runs.forM (P := fun _ _ => True) (fun _ _ _ _ _ => trivial)
    (fun item _ st₂ hs₂ _ => processItem_atTop item hs₂) hs₁).mono fun _ _ _ _ _ => trivial

/-- **What a body does** keeps the history true. -/
theorem bodyCall_atTop (call : BodyCall) (hs : (atTop p).inv st) :
    Runs (atTop p) (bodyCall p call) st fun _ _ => True := by
  refine .get ?_
  split
  case isFalse => exact .pure hs trivial
  case isTrue hfits =>
    cases call with
    | resolveType module type self =>
      refine (resolveType_atTop type hs ?_).bind fun _ _ hs₁ _ _ => .pure hs₁ trivial
      rintro i rfl
      exact hfits
    | internNominal e =>
      exact (intern_atTop hs (of_decide_eq_true hfits)).bind fun _ _ hs₁ _ _ => .pure hs₁ trivial
    | tuple elements =>
      refine Runs.bind
        (copySeq_shares hs (List.all_eq_true.1 hfits) fun _ _ => .inl (Nat.zero_le _))
        fun range st₁ hs₁ _ ⟨hwithin, hlist, _⟩ => ?_
      refine Runs.bind (tupleType_grows hs₁ hwithin fun slot hslot => ⟨?_, Nat.zero_le _⟩)
        fun _ _ hs₂ _ _ => .pure hs₂ trivial
      rw [hlist, List.mem_range'_1] at hslot
      exact Nat.le_trans hs.2.1.base hslot.1
    | reference pointee isMut =>
      exact Runs.bind (referenceType_grows hs (Storage.usable_lt hfits) (.inl (Nat.zero_le _)))
        fun _ _ hs₁ _ _ => .pure hs₁ trivial
    | never =>
      exact Runs.bind (markerType_shares (.inl rfl) hs) fun _ _ hs₁ _ _ => .pure hs₁ trivial
    | error => exact Runs.bind (errorType_shares hs) fun _ _ hs₁ _ _ => .pure hs₁ trivial
    | report code span message =>
      exact (report_shares hs (of_decide_eq_true hfits)).mono fun _ _ _ _ _ => trivial

/-! ## The package -/

theorem Registered.tidy (h : Registered p table) : Tidy table := by
  refine ⟨?_, ?_, ?_, ?_, ?_, ?_, ?_, ?_⟩
  · rw [h.storage]
    decide
  · unfold Rowed
    rw [h.storage]
    exact nofun
  · rw [h.storage]
    exact nofun
  · rw [h.blessed]
    exact nofun
  · rw [h.storage]
    exact fun _ _ _ _ _ _ hrow => absurd hrow nofun
  · rw [h.storage]
    exact nofun
  · rw [h.blessed]
    exact fun _ _ _ _ hmem => absurd hmem nofun
  · rw [h.blessed]
    exact .nil

theorem Registered.told (h : Registered p table) : Told p table := by
  refine ⟨?_, ?_, ?_, ?_, ?_, ?_⟩ <;> rw [h.resolutions]
  · exact nofun
  · exact .nil
  · exact nofun
  · exact nofun
  · exact nofun
  · exact .nil

/-- **The history of every package is true.** The search for recursive types leaves it as it is. -/
theorem checkPackage_told (p : Package) (calls : List BodyCall) :
    ∃ st, checkPackage p calls .start = some ((), st) ∧ Checked p st.table ∧ Tidy st.table ∧
      Told p st.table := by
  obtain ⟨_, st₁, hrun₁, hs₁, -, -⟩ := registerNominals_steps p
  have hs : (atTop p).inv st₁ := ⟨⟨hs₁.1.sound, hs₁.2⟩, hs₁.1.tidy, hs₁.1.told⟩
  obtain ⟨_, st₂, hrun₂, hs₂, -, -⟩ := processModules_atTop hs
  obtain ⟨_, st₃, hrun₃, hs₃, -, -⟩ := Runs.forM (P := fun _ _ => True) (l := calls)
    (fun _ _ _ _ _ => trivial) (fun call _ _ hs _ => bodyCall_atTop call hs) hs₂
  have hitems : checkItems p calls .start = some ((), st₃) := by
    unfold checkItems
    rw [bind_of_eq hrun₁, bind_of_eq hrun₂, hrun₃]
  obtain ⟨st, hst, hchecked, hbag⟩ := checkItems_checked p calls
  cases hitems.symm.trans hst
  obtain ⟨bag, hvalidate, -⟩ := validateCycles_eq hchecked hbag
  refine ⟨{ st₃ with bag }, ?_, hchecked, hs₃.2⟩
  unfold checkPackage
  rw [bind_of_eq hitems, hvalidate]

/-- The type that a call of the history asked for, by the nodes of its declarations. -/
def Resolution.typeOf (p : Package) (table : Table) (r : Resolution) : Meaning :=
  (r.meaning p table.nominals).settled table.nominals

/-- `Option<(i32, bool)>`. -/
def optionPair : Ty := .path default (pathTo ["Option"])
  [.tuple default [.primitive default .i32, .primitive default .bool]]

/-- A function with a parameter of that type that returns it. -/
def handingOn : Package :=
  onlyRoot [.fn (fnOf "f" [⟨.ident default ⟨"a", default⟩, optionPair⟩] (some optionPair)
    (some (.path default (pathTo ["a"]))))]

def isOptionPair : Meaning → Bool
  | .option (.tuple [.node 4, .node 1]) => true
  | _ => false

theorem eq_of_isOptionPair {m : Meaning} (h : isOptionPair m = true) :
    m = .option (.tuple [.node 4, .node 1]) := by
  unfold isOptionPair at h
  split at h
  · rfl
  · cases h

/-- The calls for `Option<(i32, bool)>` among those of the history. -/
def optionPairs (p : Package) : Option (List TypeIdx) :=
  (checkPackage p [] .start).map fun r =>
    (r.2.table.resolutions.filter fun call => isOptionPair (call.typeOf p r.2.table)).map (·.idx)

end Alcy.Analyzer.Types
