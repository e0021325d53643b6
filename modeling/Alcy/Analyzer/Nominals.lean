import Alcy.Analyzer.TypeSteps

/-! # Interning nominals

`intern_nominal` reserves a node, resolves the members, which may come back to the same nominal, and
fills the row it has reserved. Every item of the package goes through it or through `resolve_type`;
at the end the table mirrors the declarations.
-/
namespace Alcy.Analyzer.Types
open Alcy.Ast Alcy.Diag Alcy.Ir
open Alcy.Lib.Total (Frame Runs bind_of_eq)

variable {p : Package} {st : CheckState}

/-! ## Members -/

/-- The range that the members of a nominal have come to. -/
def MembersMirror (p : Package) (table : Table) (module : Nat) (range : IdxRange) :
    NominalItem → Prop
  | .struct decl => range.Within table.storage.types.length ∧
      SlotsCopy table module none (decl.fields.map (·.type)) range
  | .enum decl => range.Within table.storage.enumVariantTypes.length ∧
      List.Forall₂ (VariantMirrors p table module) decl.variants range.toList

/-- **The variants follow one another**, and each has its payload. -/
theorem fillVariants_steps {module : Nat} : ∀ {variants : List EnumVariant}
    {payloads : List (List TypeIdx)} {seq : SeqBuilder} {st : CheckState}, (frame p).inv st →
    List.Forall₂ (fun variant payload => Resolved st.table st.table.resolutions module none
      (EnumVariant.fields variant) payload) variants payloads →
    seq.Next st.table.storage.enumVariantTypes.length →
    Runs (frame p) (fillVariants p variants payloads seq) st fun seq' st' =>
      seq'.Next st'.table.storage.enumVariantTypes.length ∧
      ∃ idxs, seq'.finish.toList = seq.finish.toList ++ idxs ∧
        List.Forall₂ (VariantMirrors p st'.table module) variants idxs := by
  intro variants
  induction variants with
  | nil =>
    intro payloads seq st hs hp hseq
    cases hp
    exact .pure hs ⟨hseq, [], by simp, .nil⟩
  | cons variant variants ih =>
    intro payloads seq st hs hp hseq
    cases hp with
    | @cons _ payload _ payloads hfirst hrest =>
      refine (copySeq_steps hs hfirst.usable).bind fun range st₁ hs₁ hg₁ hrange => ?_
      refine (enumVariant_steps hs₁ hrange.within).bind fun idx st₂ hs₂ hg₂ hidx => ?_
      obtain ⟨hidx, hlen, hrow⟩ := hidx
      have hmirrors : VariantMirrors p st₂.table module variant idx :=
        ⟨_, hrow, rfl, (hfirst.slotsCopy hg₁.toExtends hrange.size hrange.slots).extend
          hg₂.toExtends⟩
      -- copying payloads has not moved the end of the variants
      have hsame := congrArg List.length hrange.variants
      obtain ⟨seq₁, hpush, hnext, hlist⟩ := hseq.push
      refine .lift ((hidx.trans hsame) ▸ hpush) ?_
      have hext := (hg₁.trans hg₂).toExtends
      refine (ih hs₂ (hrest.imp fun _ _ h => h.extend hext) ?_).mono
        fun seq' st₃ hs₃ hg₃ h => ?_
      · rw [hlen, hidx, hsame]
        exact hnext
      · obtain ⟨hnext', idxs, hlist', hmirrors'⟩ := h
        refine ⟨hnext', idx :: idxs, ?_, .cons (hmirrors.extend hg₃.toExtends) hmirrors'⟩
        rw [hlist', hlist, List.append_assoc, hidx, hsame]
        rfl

theorem members_steps {intern : Nat → CheckM TypeIdx} {fuel : Nat} (hi : Interns p intern fuel)
    (module : Nat) (item : NominalItem) (hs : (frame p).inv st)
    (hf : unstarted st.table.nominals ≤ fuel) :
    Runs (frame p) (members p intern module item) st fun range st' =>
      MembersMirror p st'.table module range item := by
  have hwhole {st st' : CheckState} {types : List Ty} {idxs : List TypeIdx}
      (h : Resolved st'.table (Since st.table st'.table) module none types idxs) :
      Resolved st'.table st'.table.resolutions module none types idxs :=
    ⟨h.length, h.usable, h.calls.trans (List.drop_sublist _ _)⟩
  cases item with
  | struct decl =>
    refine (resolveTypes_steps hi _ hs hf (by simp)).bind fun idxs st₁ hs₁ _ hidxs => ?_
    refine (copySeq_steps hs₁ hidxs.usable).mono fun range st₂ _ hg₂ hrange => ?_
    exact ⟨hrange.within, (hwhole hidxs).slotsCopy hg₂.toExtends hrange.size hrange.slots⟩
  | enum decl =>
    have hpayloads : Runs (frame p) (decl.variants.mapM fun variant =>
        resolveTypes p intern module none variant.fields) st fun payloads st' =>
        List.Forall₂ (fun variant payload => Resolved st'.table st'.table.resolutions module none
          (EnumVariant.fields variant) payload) decl.variants payloads := by
      refine .mapM (P := fun (variant : EnumVariant) payload st' => Resolved st'.table
        st'.table.resolutions module none variant.fields payload) ?_ ?_ hs
      · exact fun _ _ _ _ hg h => h.extend hg.toExtends
      · intro variant _ st₁ hs₁ hg₁
        refine (resolveTypes_steps hi variant.fields hs₁
          (Nat.le_trans hg₁.unstarted_le hf) (by simp)).mono fun _ _ _ _ h => hwhole h
    refine hpayloads.bind fun payloads st₁ hs₁ _ hp => ?_
    refine (fillVariants_steps hs₁ hp (.inl rfl)).bind fun seq st₂ hs₂ _ hseq => ?_
    obtain ⟨hnext, idxs, hlist, hmirrors⟩ := hseq
    refine .pure hs₂ ⟨hnext.within, ?_⟩
    rw [hlist]
    exact hmirrors

/-! ## Reserving and filling -/

/-- The row of a reserved node is the last one, and still empty. -/
def ReservedRow (p : Package) (s s' : Storage) (k : Nat) : NominalItem → Prop
  | .struct decl => k = s.structTypes.length ∧
      s'.structTypes[k]? = some ⟨p.pool decl.name.name, ⟨0, 0⟩⟩
  | .enum decl => k = s.enumTypes.length ∧
      s'.enumTypes[k]? = some ⟨p.pool decl.name.name, ⟨0, 0⟩⟩

/-- The table with a reserved node. -/
structure Reserved (p : Package) (s s' : Storage) (item : NominalItem) (k : Nat) : Prop where
  extend : s.Extends s'
  closed : s'.Closed
  types : s'.types = s.types ++ [⟨item.tag, k⟩]
  fresh : ⟨item.tag, k⟩ ∉ s.types
  structs : ∀ k' : Nat, s.structTypes.length ≤ k' → k' < s'.structTypes.length →
    (⟨.struct, k'⟩ : TypeNode) = ⟨item.tag, k⟩
  row : ReservedRow p s s' k item

theorem reserveNominal_eq {s : Storage} (h : s.Closed) (item : NominalItem) :
    ∃ k s', reserveNominal p item s = some (s.types.length, s') ∧ Reserved p s s' item k := by
  have hprim : ∀ node ∈ internPrimitives, node.tag ≠ .struct ∧ node.tag ≠ .enum := by decide
  have hnew {tag : TypeTag} {k : Nat} (htag : tag = .struct ∨ tag = .enum)
      (hr : s.readable ⟨tag, k⟩ = false) : (⟨tag, k⟩ : TypeNode) ∉ s.types := by
    intro hmem
    rcases h.nodes _ hmem with hp | hr'
    · rcases htag with rfl | rfl
      · exact (hprim _ hp).1 rfl
      · exact (hprim _ hp).2 rfl
    · rw [hr] at hr'
      cases hr'
  cases item with
  | struct decl =>
    let s' : Storage := { s with
      types := s.types ++ [⟨.struct, s.structTypes.length⟩]
      structTypes := s.structTypes ++ [⟨p.pool decl.name.name, ⟨0, 0⟩⟩] }
    have he : s.Extends s' := { Storage.Extends.refl _ with
      types := List.prefix_append _ _
      structs := List.prefix_append _ _ }
    refine ⟨s.structTypes.length, s', rfl, he, h.grow he ?_ ?_ (fun _ h => .inl h)
      (fun _ h => .inl h) (fun _ h => .inl h) rfl, rfl, hnew (.inl rfl) ?_, ?_, rfl,
      List.getElem?_concat_length⟩
    · intro node hm
      rcases List.mem_append.1 hm with hm | hm
      · exact .inl hm
      · rw [List.mem_singleton.1 hm]
        exact .inr (by simp [Storage.readable, s'])
    · intro row hm
      rcases List.mem_append.1 hm with hm | hm
      · exact .inl hm
      · rw [List.mem_singleton.1 hm]
        exact .inr (Nat.zero_le _)
    · exact decide_eq_false (Nat.lt_irrefl _)
    · intro k hge hlt
      have hk : k = s.structTypes.length := by
        simp only [s', List.length_append, List.length_singleton] at hlt
        omega
      rw [hk]
      rfl
  | enum decl =>
    let s' : Storage := { s with
      types := s.types ++ [⟨.enum, s.enumTypes.length⟩]
      enumTypes := s.enumTypes ++ [⟨p.pool decl.name.name, ⟨0, 0⟩⟩] }
    have he : s.Extends s' := { Storage.Extends.refl _ with
      types := List.prefix_append _ _
      enums := List.prefix_append _ _ }
    refine ⟨s.enumTypes.length, s', rfl, he, h.grow he ?_ (fun _ h => .inl h) (fun _ h => .inl h)
      ?_ (fun _ h => .inl h) rfl, rfl, hnew (.inr rfl) ?_, ?_, rfl, List.getElem?_concat_length⟩
    · intro node hm
      rcases List.mem_append.1 hm with hm | hm
      · exact .inl hm
      · rw [List.mem_singleton.1 hm]
        exact .inr (by simp [Storage.readable, s'])
    · intro row hm
      rcases List.mem_append.1 hm with hm | hm
      · exact .inl hm
      · rw [List.mem_singleton.1 hm]
        exact .inr (Nat.zero_le _)
    · exact decide_eq_false (Nat.lt_irrefl _)
    · intro k hge hlt
      exact absurd hlt (Nat.not_lt.2 hge)

/-- The entry that `intern_nominal` starts. -/
def startedEntry (entry : NominalEntry) (type : TypeIdx) : NominalEntry :=
  { entry with type, started := true }

/-- The table after the reservation. -/
def startedTable (table : Table) (e : Nat) (s : Storage) : Table :=
  { table with
    storage := s
    nominals := table.nominals.modify e fun entry =>
      startedEntry entry table.storage.types.length }

/-- **A reservation keeps the invariant**, though its nominal is not complete yet. -/
theorem Sound.reserve {table : Table} (h : Sound p table) {e k : Nat} {entry : NominalEntry}
    (he : table.nominals[e]? = some entry) (hs : entry.started = false)
    (hc : entry.complete = false) {s : Storage}
    (hr : Reserved p table.storage s entry.item k) :
    Sound p (startedTable table e s) ∧ Extends table (startedTable table e s) := by
  have hnode : s.types[table.storage.types.length]? = some ⟨entry.item.tag, k⟩ := by
    rw [hr.types, List.getElem?_concat_length]
  have hhere : (startedTable table e s).nominals[e]? =
      some (startedEntry entry table.storage.types.length) := by
    simp [startedTable, he]
  have hnominal : IsNominal (startedTable table e s) ⟨entry.item.tag, k⟩ :=
    ⟨_, List.mem_of_getElem? hhere, rfl, hnode⟩
  have hext : Extends table (startedTable table e s) := by
    refine ⟨hr.extend, List.length_modify .., ?_, List.prefix_rfl, List.prefix_rfl⟩
    intro e' old new ho hn
    rcases getElem?_modify_cases hn with ⟨rfl, a, ha, rfl⟩ | ⟨-, ho'⟩
    · obtain rfl : old = a := Option.some.inj (ho.symm.trans ha)
      obtain rfl : old = entry := Option.some.inj (ho.symm.trans he)
      exact ⟨rfl, rfl, fun hstarted => by rw [hs] at hstarted; cases hstarted⟩
    · obtain rfl : old = new := Option.some.inj (ho.symm.trans ho')
      exact .refl old
  refine ⟨h.extend hext hr.closed ?_ ?_ ?_ (fun _ h => .inl h) (fun _ h => .inl h), hext⟩
  · intro e' new hn
    rcases getElem?_modify_cases hn with ⟨rfl, a, ha, rfl⟩ | ⟨-, ho⟩
    · obtain rfl : a = entry := Option.some.inj (ha.symm.trans he)
      refine .inr ⟨hc, ⟨k, hnode, hr.fresh⟩, fun e'' other hother => ?_⟩
      rcases getElem?_modify_cases hother with ⟨rfl, -⟩ | ⟨-, ho⟩
      · exact .inr rfl
      · exact .inl ho
    · exact .inl ho
  · intro k' hge hlt
    rw [hr.structs k' hge hlt]
    exact hnominal
  · intro idx node hge hidx
    have hlt := (List.getElem?_eq_some_iff.1 hidx).1
    obtain rfl : idx = table.storage.types.length := by
      have hlen : s.types.length = table.storage.types.length + 1 := by
        rw [hr.types, List.length_append, List.length_singleton]
      have hlt' : idx < s.types.length := hlt
      omega
    obtain rfl : ⟨entry.item.tag, k⟩ = node := Option.some.inj (hnode.symm.trans hidx)
    exact .inl hnominal

/-- **The row is filled**: it is there, it is this nominal's own, and it then mirrors the item. -/
theorem fillNominal_eq {table : Table} (h : Sound p table) {item : NominalItem} {type : TypeIdx}
    {k : Nat} {module : Nat} {range : IdxRange} {s₀ : Storage}
    (hnode : table.storage.types[type]? = some ⟨item.tag, k⟩)
    (hrow : ReservedRow p s₀ table.storage k item)
    (hm : MembersMirror p table module range item) :
    ∃ s', fillNominal type range item table.storage = some ((), s') ∧ s'.Closed ∧
      table.storage.Refilled s' ⟨item.tag, k⟩ ∧
      (s₀.Extends table.storage → s₀.Extends s') ∧
      ∀ table' : Table, table'.storage = s' → table'.resolutions = table.resolutions →
        ∀ entry : NominalEntry, entry.item = item → entry.module = module → entry.type = type →
          Mirrors p table' entry := by
  cases item with
  | struct decl =>
    obtain ⟨hk, hrow⟩ := hrow
    obtain ⟨hwithin, hcopy⟩ := hm
    refine ⟨{ table.storage with structTypes :=
      table.storage.structTypes.set k ⟨p.pool decl.name.name, range⟩ }, ?_, ?_, ?_, ?_, ?_⟩
    · simp [fillNominal, StorageBuilder.fillStruct, hnode, TypeNode.asStruct, NominalItem.tag, hrow]
    · refine { h.closed with nodes := fun node hn => ?_, structs := fun row hr => ?_ }
      · refine (h.closed.nodes node hn).imp id fun hread => ?_
        simpa [Storage.readable] using hread
      · rcases List.mem_or_eq_of_mem_set hr with hr | rfl
        · exact h.closed.structs row hr
        · exact hwithin
    · refine ⟨rfl, rfl, rfl, rfl, rfl, List.length_set .., rfl, fun k' hne => ?_, fun _ _ => rfl⟩
      refine List.getElem?_set_ne fun heq : k = k' => hne ?_
      rw [← heq]
      rfl
    · intro hs
      exact { hs with structs := prefix_set hs.structs (Nat.le_of_eq hk.symm) _ }
    · rintro table' hs hr entry hitem rfl rfl
      have hk := (List.getElem?_eq_some_iff.1 hrow).1
      unfold Mirrors
      rw [hitem]
      refine ⟨k, ⟨p.pool decl.name.name, range⟩, by rw [hs]; exact hnode, ?_, rfl,
        hcopy.congr (by rw [hs]) hr⟩
      rw [hs]
      exact List.getElem?_set_self hk
  | enum decl =>
    obtain ⟨hk, hrow⟩ := hrow
    obtain ⟨hwithin, hmirrors⟩ := hm
    refine ⟨{ table.storage with enumTypes :=
      table.storage.enumTypes.set k ⟨p.pool decl.name.name, range⟩ }, ?_, ?_, ?_, ?_, ?_⟩
    · simp [fillNominal, StorageBuilder.fillEnum, hnode, TypeNode.asEnum, NominalItem.tag, hrow]
    · refine { h.closed with nodes := fun node hn => ?_, enums := fun row hr => ?_ }
      · refine (h.closed.nodes node hn).imp id fun hread => ?_
        simpa [Storage.readable] using hread
      · rcases List.mem_or_eq_of_mem_set hr with hr | rfl
        · exact h.closed.enums row hr
        · exact hwithin
    · refine ⟨rfl, rfl, rfl, rfl, rfl, rfl, List.length_set .., fun _ _ => rfl, fun k' hne => ?_⟩
      refine List.getElem?_set_ne fun heq : k = k' => hne ?_
      rw [← heq]
      rfl
    · intro hs
      exact { hs with enums := prefix_set hs.enums (Nat.le_of_eq hk.symm) _ }
    · rintro table' hs hr entry hitem rfl rfl
      have hk := (List.getElem?_eq_some_iff.1 hrow).1
      unfold Mirrors
      rw [hitem]
      refine ⟨k, ⟨p.pool decl.name.name, range⟩, by rw [hs]; exact hnode, ?_, rfl,
        hmirrors.imp fun _ _ hv => hv.congr (by rw [hs]) (by rw [hs]) hr⟩
      rw [hs]
      exact List.getElem?_set_self hk

theorem ReservedRow.extend {s s₁ s₂ : Storage} (h : s₁.Extends s₂) {k : Nat} {item : NominalItem}
    (hrow : ReservedRow p s s₁ k item) : ReservedRow p s s₂ k item := by
  cases item with
  | struct decl => exact ⟨hrow.1, getElem?_mono h.structs hrow.2⟩
  | enum decl => exact ⟨hrow.1, getElem?_mono h.enums hrow.2⟩

/-! ## `intern_nominal` -/

/-- From before the reservation to after the filling, the table has only grown. -/
theorem grows_of_filled {table table₂ table₃ : Table} {e : Nat} {entry : NominalEntry} {s : Storage}
    {node : TypeNode} (he : table.nominals[e]? = some entry) (hs : entry.started = false)
    (hext : Extends table (startedTable table e s)) (hg : Grows (startedTable table e s) table₂)
    (hf : Filled p table₂ table₃ e (startedEntry entry table.storage.types.length) node)
    (hstorage : table.storage.Extends table₃.storage) : Grows table table₃ := by
  have hboth := hext.trans hg.toExtends
  refine ⟨⟨hstorage, ?_, ?_, ?_, ?_⟩, ?_⟩
  · rw [hf.nominals, List.length_modify]
    exact hboth.length
  · intro e' old new ho hn
    obtain ⟨old₂, ho₂, -, -, -, -, hother, hthis⟩ := hf.entry hn
    by_cases hne : e' = e
    · subst hne
      obtain rfl : old = entry := Option.some.inj (ho.symm.trans he)
      rw [hthis rfl]
      exact ⟨rfl, rfl, fun hstarted => by rw [hs] at hstarted; cases hstarted⟩
    · rw [hother hne]
      exact hboth.kept e' old old₂ ho ho₂
  · rw [hf.blessed]
    exact hboth.blessed
  · rw [hf.resolutions]
    exact hboth.resolutions
  · intro e' old new ho hn hstarted
    obtain ⟨old₂, ho₂, -, -, -, -, hother, hthis⟩ := hf.entry hn
    by_cases hne : e' = e
    · rw [hthis hne]
      exact .inr rfl
    · rw [hother hne] at hstarted ⊢
      have ho₁ : (startedTable table e s).nominals[e']? = some old := by
        simp only [startedTable]
        rw [List.getElem?_modify_ne _ _ (Ne.symm hne), ho]
      exact hg.completed e' old old₂ ho₁ ho₂ hstarted

/-- Only an entry that has a node is complete. -/
theorem incomplete_of_unstarted {table : Table} (h : Sound p table) {e : Nat} {entry : NominalEntry}
    (he : table.nominals[e]? = some entry) (hs : entry.started = false) :
    entry.complete = false := by
  cases hc : entry.complete with
  | false => rfl
  | true =>
    rw [(h.complete entry (List.mem_of_getElem? he) hc).1] at hs
    cases hs

/-- **`intern_nominal` around the members of a new entry**: the node is reserved before they are
resolved, and its row is filled with the range they have come to. -/
theorem internFresh_around (intern : Nat → CheckM TypeIdx) {e : Nat} {entry : NominalEntry}
    (hs : (frame p).inv st) (he : st.table.nominals[e]? = some entry)
    (hnew : entry.started = false) :
    ∃ k s₁,
      reserveNominal p entry.item st.table.storage = some (st.table.storage.types.length, s₁) ∧
      Reserved p st.table.storage s₁ entry.item k ∧
      (frame p).inv { st with table := startedTable st.table e s₁ } ∧
      Extends st.table (startedTable st.table e s₁) ∧
      ∀ range st₂, members p intern entry.module entry.item
          { st with table := startedTable st.table e s₁ } = some (range, st₂) →
        (frame p).inv st₂ → Grows (startedTable st.table e s₁) st₂.table →
        MembersMirror p st₂.table entry.module range entry.item →
        ∃ st₃, internFresh p intern e entry st = some (st.table.storage.types.length, st₃) ∧
          (frame p).inv st₃ ∧ Grows st.table st₃.table ∧
          Filled p st₂.table st₃.table e (startedEntry entry st.table.storage.types.length)
            ⟨entry.item.tag, k⟩ := by
  have hincomplete := incomplete_of_unstarted hs.1 he hnew
  obtain ⟨k, s₁, hreserve, hr⟩ := reserveNominal_eq (p := p) hs.1.closed entry.item
  obtain ⟨hsound₁, hext₁⟩ := hs.1.reserve he hnew hincomplete hr
  refine ⟨k, s₁, hreserve, hr, ⟨hsound₁, hs.2⟩, hext₁, fun range st₂ hrun₂ hs₂ hg₂ hm => ?_⟩
  let type := st.table.storage.types.length
  have hhere₁ : (startedTable st.table e s₁).nominals[e]? = some (startedEntry entry type) := by
    simp [startedTable, he, type]
  have hhere₂ : st₂.table.nominals[e]? = some (startedEntry entry type) := by
    obtain ⟨new, hn⟩ := getElem?_of_length hg₂.length hhere₁
    rw [hn, (hg₂.kept e _ new hhere₁ hn).settled rfl]
  have hnode₂ : st₂.table.storage.types[type]? = some ⟨entry.item.tag, k⟩ :=
    getElem?_mono hg₂.storage.types (by
      show s₁.types[type]? = _
      rw [hr.types, List.getElem?_concat_length])
  obtain ⟨s₃, hfill, hclosed, hrefilled, hextend, hmirrors⟩ :=
    fillNominal_eq hs₂.1 hnode₂ (hr.row.extend hg₂.storage) hm
  let st₃ : CheckState := { st₂ with
    table := { st₂.table with
      storage := s₃
      nominals := st₂.table.nominals.modify e fun entry => { entry with complete := true } } }
  have hfilled : Filled p st₂.table st₃.table e (startedEntry entry type) ⟨entry.item.tag, k⟩ :=
    ⟨hhere₂, rfl, hnode₂, hrefilled, hclosed, rfl, rfl, rfl,
      hmirrors st₃.table rfl rfl (startedEntry entry type) rfl rfl rfl⟩
  have hg : Grows st.table st₃.table :=
    grows_of_filled he hnew hext₁ hg₂ hfilled (hextend (hext₁.storage.trans hg₂.storage))
  refine ⟨st₃, ?_, ⟨hs₂.1.fill hfilled, hs₂.2⟩, hg, hfilled⟩
  have hmark : updateNominal e (fun entry => { entry with type, started := true })
      { st with table := { st.table with storage := s₁ } } =
        some ((), { st with table := startedTable st.table e s₁ }) := rfl
  unfold internFresh
  rw [bind_of_eq (build_eq hreserve), bind_of_eq hmark, bind_of_eq hrun₂,
    bind_of_eq (build_eq hfill)]
  rfl

/-- The entry that has been filled. -/
theorem Filled.complete {table table' : Table} {e : Nat} {entry : NominalEntry} {node : TypeNode}
    (h : Filled p table table' e entry node) :
    table'.nominals[e]? = some { entry with complete := true } := by
  rw [h.nominals, List.getElem?_modify_eq, h.here, Option.map_eq_map, Option.map_some]

/-- After the reservation there is one entry fewer to start. -/
theorem unstarted_started {table : Table} {e fuel : Nat} {entry : NominalEntry} {s : Storage}
    (he : table.nominals[e]? = some entry) (hnew : entry.started = false)
    (hf : unstarted table.nominals ≤ fuel + 1) :
    unstarted (startedTable table e s).nominals ≤ fuel := by
  have hone : unstarted (startedTable table e s).nominals + 1 = unstarted table.nominals :=
    unstarted_modify he hnew rfl
  omega

theorem internFresh_steps {intern : Nat → CheckM TypeIdx} {fuel : Nat} (hi : Interns p intern fuel)
    {e : Nat} {entry : NominalEntry} (hs : (frame p).inv st)
    (he : st.table.nominals[e]? = some entry) (hnew : entry.started = false)
    (hf : unstarted st.table.nominals ≤ fuel + 1) :
    Runs (frame p) (internFresh p intern e entry) st fun idx st' =>
      st'.table.storage.usable idx = true ∧
      ∃ entry', st'.table.nominals[e]? = some entry' ∧ entry'.started = true := by
  obtain ⟨k, s₁, -, -, hs₁, -, haround⟩ := internFresh_around intern hs he hnew
  -- the members may come back to this entry, which is started now
  obtain ⟨range, st₂, hrun₂, hs₂, hg₂, hm⟩ :=
    members_steps hi entry.module entry.item hs₁ (unstarted_started he hnew hf)
  obtain ⟨st₃, hrun, hs₃, hg, hfilled⟩ := haround range st₂ hrun₂ hs₂ hg₂ hm
  refine .of_eq hrun hs₃ hg ⟨?_, _, hfilled.complete, hfilled.started⟩
  have hnode := hfilled.reserved
  rw [← hfilled.storage.types] at hnode
  refine hs₃.1.usable_node hnode ?_
  cases entry.item
  · exact .inl rfl
  · exact .inr (.inl rfl)

theorem nominal_eq {e : Nat} {entry : NominalEntry} (he : st.table.nominals[e]? = some entry) :
    nominal e st = some (entry, st) := by
  simp [nominal, he]

/-- An entry that has a node is that node. -/
theorem internNominal_started {fuel e : Nat} {entry : NominalEntry}
    (he : st.table.nominals[e]? = some entry) (hs : entry.started = true) :
    internNominal p fuel e st = some (entry.type, st) := by
  unfold internNominal
  rw [bind_of_eq (nominal_eq he), hs, Bool.or_true]
  rfl

theorem started_steps {fuel e : Nat} {entry : NominalEntry} (hs : (frame p).inv st)
    (he : st.table.nominals[e]? = some entry) (hstarted : entry.started = true) :
    Runs (frame p) (internNominal p fuel e) st fun idx st' =>
      st'.table.storage.usable idx = true ∧
      ∃ entry, st'.table.nominals[e]? = some entry ∧ entry.started = true := by
  obtain ⟨k, hk⟩ := hs.1.entries entry (List.mem_of_getElem? he) hstarted
  refine .of_eq (internNominal_started he hstarted) hs (.refl _) ⟨hs.1.usable_node hk ?_, entry, he,
    hstarted⟩
  cases entry.item
  · exact .inl rfl
  · exact .inr (.inl rfl)

theorem internNominal_fresh {fuel e : Nat} {entry : NominalEntry}
    (he : st.table.nominals[e]? = some entry) (hs : entry.started = false)
    (hc : entry.complete = false) :
    internNominal p (fuel + 1) e st = internFresh p (internNominal p fuel) e entry st := by
  rw [internNominal, bind_of_eq (nominal_eq he), hs, hc]
  rfl

/-- **Interning a nominal runs to its end**, however the declarations refer to one another. -/
theorem internNominal_steps (p : Package) (fuel : Nat) :
    Interns p (internNominal p fuel) fuel := by
  induction fuel with
  | zero =>
    intro st e hs hf he
    have hstarted : st.table.nominals[e].started = true := by
      by_contra hn
      have hpos : 0 < unstarted st.table.nominals :=
        List.countP_pos_iff.2 ⟨_, List.getElem_mem he, by simpa using hn⟩
      omega
    exact started_steps hs (List.getElem?_eq_getElem he) hstarted
  | succ fuel ih =>
    intro st e hs hf he
    have hentry := List.getElem?_eq_getElem he
    cases hstarted : st.table.nominals[e].started with
    | true => exact started_steps hs hentry hstarted
    | false =>
      obtain ⟨idx, st', hrun, hrest⟩ := internFresh_steps ih hs hentry hstarted hf
      refine ⟨idx, st', ?_, hrest⟩
      rw [internNominal_fresh hentry hstarted (incomplete_of_unstarted hs.1 hentry hstarted)]
      exact hrun

/-- The depth that a call at the top is given is enough. -/
theorem intern_steps (p : Package) {fuel : Nat} : Interns p (intern p) fuel := by
  intro st e hs _ he
  refine .get (internNominal_steps p _ st e hs ?_ he)
  exact List.countP_le_length

end Alcy.Analyzer.Types
