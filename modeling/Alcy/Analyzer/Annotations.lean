import Alcy.Analyzer.Interning

/-! # The types of annotations

An annotation is known to the checker by the index that `resolve_type` or `intern_nominal` returned
for it, or by a slot that holds a copy of its node. The node tells the type: each constructor has a
shape of its own, and a node has one type.
-/
namespace Alcy.Analyzer.Types
open Alcy.Ast Alcy.Diag Alcy.Ir

/-! ## Where annotations stand -/

/-- The block around a position has no type, or that of a nominal. -/
def InBlock (table : Table) (self : Option TypeIdx) : Prop :=
  ∀ i, self = some i → ∃ entry ∈ table.nominals, entry.started = true ∧ entry.type = i

/-- The type of a position, by the nodes of its declarations. -/
def typeAt (p : Package) (table : Table) (module : Nat) (self : Option TypeIdx) (type : Ty) :
    Meaning :=
  (meaning p (declared p table.nominals) module self type).settled table.nominals

/-- The indexes that the checker has for the annotations of the source: what `resolve_type` and
`intern_nominal` returned, the slots of fields, of payloads and of the elements of tuples, and the
arguments of `Result` and `Option`. -/
inductive Stands (p : Package) (table : Table) : TypeIdx → Meaning → Prop
  | call {r} : r ∈ table.resolutions → InBlock table r.self →
      Stands p table r.idx (typeAt p table r.module r.self r.type)
  | nominal {entry} : entry ∈ table.nominals → entry.started = true →
      Stands p table entry.type (.node entry.type)
  | field {entry decl k row slot} {i : Nat} {field : StructField} : entry ∈ table.nominals →
      entry.item = .struct decl →
      table.storage.types[entry.type]? = some ⟨.struct, k⟩ →
      table.storage.structTypes[k]? = some row → decl.fields[i]? = some field →
      row.fields.toList[i]? = some slot →
      Stands p table slot (typeAt p table entry.module none field.type)
  | payload {entry decl k row idx fields type slot} {v i : Nat} {variant : EnumVariant} :
      entry ∈ table.nominals → entry.item = .enum decl →
      table.storage.types[entry.type]? = some ⟨.enum, k⟩ →
      table.storage.enumTypes[k]? = some row → decl.variants[v]? = some variant →
      row.variants.toList[v]? = some idx → table.storage.enumVariantTypes[idx]? = some fields →
      variant.fields[i]? = some type → fields.fields.toList[i]? = some slot →
      Stands p table slot (typeAt p table entry.module none type)
  | element {r span elements k row type slot} {i : Nat} : r ∈ table.resolutions →
      InBlock table r.self → r.type = .tuple span elements → table.storage.types[r.idx]? = some ⟨.tuple, k⟩ →
      table.storage.tupleTypes[k]? = some row → elements[i]? = some type →
      row.elements.toList[i]? = some slot →
      Stands p table slot (typeAt p table r.module r.self type)
  | argument {r span path args isResult entry type slot} {i : Nat} : r ∈ table.resolutions →
      InBlock table r.self → r.type = .path span path args → blessedPath path = some isResult →
      args.length = blessedArity isResult → entry ∈ table.blessed → entry.type = r.idx →
      args[i]? = some type → entry.args[i]? = some slot →
      Stands p table slot (typeAt p table r.module r.self type)

/-- Two indexes with one node, which is no struct and no enum. -/
def SameNode (s : Storage) (a b : TypeIdx) : Prop :=
  ∃ node, s.types[a]? = some node ∧ s.types[b]? = some node ∧ node.tag ≠ .struct ∧
    node.tag ≠ .enum

mutual

/-- The type is recognized under any of its indexes: no struct and no enum is in it, but for the
target of a reference that always gets the same index. -/
def Meaning.comparable : Meaning → Bool
  | .node idx => idx ≤ primitiveIdx .str
  | .marker _ => true
  | .tuple elements => allComparable elements
  | .ref _ pointee => pointee.tupleFree || pointee.comparable
  | .nominal _ | .option _ | .result .. => false

def allComparable : List Meaning → Bool
  | [] => true
  | first :: rest => first.comparable && allComparable rest

end

/-- The two indexes pass for the type. -/
def Alike (s : Storage) (a b : TypeIdx) (m : Meaning) : Prop :=
  a = b ∨ SameNode s a b ∨ m.comparable = true

variable {p : Package} {table : Table} {i j a b : TypeIdx} {m m' : Meaning} {node : TypeNode}

/-! ## Shapes -/

/-- `resolve_type` returned the index for the type. -/
def Call (p : Package) (table : Table) (idx : TypeIdx) (m : Meaning) : Prop :=
  ∃ r ∈ table.resolutions, InBlock table r.self ∧ r.idx = idx ∧
    typeAt p table r.module r.self r.type = m

/-- The index of a call or a nominal. -/
def Origin (p : Package) (table : Table) (idx : TypeIdx) (m : Meaning) : Prop :=
  Call p table idx m ∨ ∃ entry ∈ table.nominals, entry.started = true ∧ entry.type = idx ∧
    m = .node idx

/-- The index of a type or of a copy of its node. -/
def Site (p : Package) (table : Table) (idx : TypeIdx) (m : Meaning) : Prop :=
  ∃ origin node, Origin p table origin m ∧ table.storage.types[origin]? = some node ∧
    table.storage.types[idx]? = some node

/-- How the node of a type is made. -/
inductive Shape (p : Package) (table : Table) (node : TypeNode) : Meaning → Prop
  | plain : primitiveIdx node.tag ≤ primitiveIdx .str →
      Shape p table node (.node (primitiveIdx node.tag))
  | nominal {entry} : node.tag = .struct ∨ node.tag = .enum → entry ∈ table.nominals →
      entry.started = true → table.storage.types[entry.type]? = some node →
      Shape p table node (.node entry.type)
  | marker : node.tag = .never ∨ node.tag = .error → Shape p table node (.marker node.tag)
  | ref {isMut row m} : node.tag = referenceTag isMut →
      table.storage.refTypes[node.data]? = some row → Call p table row.pointee m →
      Shape p table node (.ref isMut m)
  | tuple {row ms} : node.tag = .tuple → table.storage.tupleTypes[node.data]? = some row →
      List.Forall₂ (Site p table) row.elements.toList ms → Shape p table node (.tuple ms)
  | option {entry arg m} : node.tag = .enum → entry ∈ table.blessed →
      table.storage.types[entry.type]? = some node → entry.isResult = false →
      entry.args = [arg] → Call p table arg m → Shape p table node (.option m)
  | result {entry first second ok err} : node.tag = .enum → entry ∈ table.blessed →
      table.storage.types[entry.type]? = some node → entry.isResult = true →
      entry.args = [first, second] → Call p table first ok → Call p table second err →
      Shape p table node (.result ok err)

/-- A package whose history is told. -/
structure Compared (p : Package) (table : Table) : Prop where
  checked : Checked p table
  tidy : Tidy table
  told : Told p table

theorem settledAll_eq (nominals : List NominalEntry) (ms : List Meaning) :
    settledAll nominals ms = ms.map (·.settled nominals) := by
  induction ms with
  | nil => rfl
  | cons m ms ih => rw [settledAll, ih, List.map_cons]

theorem meanings_eq (names : Nat → Path → Meaning) (module : Nat) (self : Option TypeIdx)
    (types : List Ty) :
    meanings p names module self types = types.map (meaning p names module self) := by
  induction types with
  | nil => rfl
  | cons type types ih => rw [meanings, ih, List.map_cons]

/-- The types of a list of positions. -/
theorem settledAll_meanings (module : Nat) (self : Option TypeIdx) (types : List Ty) :
    settledAll table.nominals (meanings p (declared p table.nominals) module self types) =
      types.map (typeAt p table module self) := by
  rw [settledAll_eq, meanings_eq, List.map_map]
  rfl

/-- **A slot holds a copy of the node of its type.** -/
theorem SlotsCopy.site (h : Checked p table) {module : Nat} {self : Option TypeIdx}
    {types : List Ty} {slots : IdxRange} (hc : SlotsCopy table module self types slots)
    (hblock : InBlock table self)
    {k : Nat} {type : Ty} {slot : TypeIdx} (ht : types[k]? = some type)
    (hs : slots.toList[k]? = some slot) : Site p table slot (typeAt p table module self type) := by
  obtain ⟨-, idxs, nodes, hlen, hsub, hidxs, hslots⟩ := hc
  obtain ⟨idx, hidx⟩ := getElem?_of_length hlen ht
  have hcall : ⟨module, type, self, idx⟩ ∈ table.resolutions := by
    refine hsub.subset (List.mem_of_getElem? (i := k) ?_)
    rw [List.getElem?_zipWith, ht, hidx]
  have hcopy : table.storage.types[idx]? = table.storage.types[slot]? := by
    have hboth := congrArg (fun l : List (Option TypeNode) => l[k]?) (hidxs.trans hslots.symm)
    simpa [hidx, hs] using hboth
  obtain ⟨hlt, -⟩ := h.sound.resolutions _ hcall
  have hnode : table.storage.types[idx]? = some table.storage.types[idx] :=
    List.getElem?_eq_getElem hlt
  exact ⟨idx, _, .inl ⟨_, hcall, hblock, rfl, rfl⟩, hnode, hcopy ▸ hnode⟩

theorem Origin.lt (h : Checked p table) (ho : Origin p table i m) :
    i < table.storage.types.length := by
  rcases ho with ⟨r, hr, -, rfl, -⟩ | ⟨entry, he, hs, rfl, -⟩
  · exact (h.sound.resolutions r hr).1
  · exact h.sound.started_lt he hs

theorem Origin.site (h : Checked p table) (ho : Origin p table i m) : Site p table i m :=
  have hnode := List.getElem?_eq_getElem (ho.lt h)
  ⟨i, _, ho, hnode, hnode⟩

theorem Distinct.instance_eq (h : Distinct table) {inst inst' : BlessedEntry}
    (hi : inst ∈ table.blessed) (hi' : inst' ∈ table.blessed)
    (heq : table.storage.types[inst.type]? = table.storage.types[inst'.type]?) : inst = inst' := by
  obtain ⟨k, hk, rfl⟩ := List.mem_iff_getElem.1 hi
  obtain ⟨k', hk', rfl⟩ := List.mem_iff_getElem.1 hi'
  have hordered := List.pairwise_iff_getElem.1 h.instances
  rcases Nat.lt_trichotomy k k' with hlt | rfl | hlt
  · exact absurd heq (hordered k k' hk hk' hlt)
  · rfl
  · exact absurd heq.symm (hordered k' k hk' hk hlt)

/-- The arguments of an instance of `Result` or `Option` are what the calls for them returned. -/
theorem Compared.argument (h : Compared p table) {r : Resolution} {span : Span} {path : Path}
    {args : List Ty} {isResult : Bool} {entry : BlessedEntry} (hr : r ∈ table.resolutions)
    (hpath : r.type = .path span path args) (hblessed : blessedPath path = some isResult)
    (hfit : args.length = blessedArity isResult) (he : entry ∈ table.blessed)
    (hentry : entry.type = r.idx) : List.Forall₂ (fun type idx =>
      ⟨r.module, type, r.self, idx⟩ ∈ table.resolutions) args entry.args := by
  obtain ⟨module, type, self, idx⟩ := r
  dsimp only at hpath hentry ⊢
  subst hpath
  have hself : singleSegment path ≠ some "Self" := by
    intro hself
    simp [blessedPath, hself] at hblessed
  obtain ⟨entry', he', hentry', -, hcalls⟩ := h.told.built _ hr hself isResult hblessed hfit
  obtain rfl := h.tidy.distinct.instance_eq he he' (by rw [hentry, hentry'])
  exact hcalls

/-- **Every index of an annotation is the index of a type or of a copy of its node.** -/
theorem Stands.site (h : Compared p table) (hs : Stands p table i m) : Site p table i m := by
  have hmirrors {entry : NominalEntry} (he : entry ∈ table.nominals) : Mirrors p table entry :=
    (h.checked.sound.complete entry he (h.checked.complete entry he)).2
  cases hs with
  | call hr hblock => exact Origin.site h.checked (.inl ⟨_, hr, hblock, rfl, rfl⟩)
  | nominal he hstarted => exact Origin.site h.checked (.inr ⟨_, he, hstarted, rfl, rfl⟩)
  | field he hitem hnode hrow hfield hslot =>
    have hm := hmirrors he
    unfold Mirrors at hm
    rw [hitem] at hm
    obtain ⟨k', row', hnode', hrow', -, hcopy⟩ := hm
    cases hnode.symm.trans hnode'
    cases hrow.symm.trans hrow'
    exact hcopy.site h.checked nofun (by rw [List.getElem?_map, hfield]; rfl) hslot
  | @payload entry decl k row idx fields type slot v i variant he hitem hnode hrow hvariant hidx
      hfields htype hslot =>
    have hm := hmirrors he
    unfold Mirrors at hm
    rw [hitem] at hm
    obtain ⟨k', row', hnode', hrow', -, hvariants⟩ := hm
    cases hnode.symm.trans hnode'
    cases hrow.symm.trans hrow'
    have hzip : (decl.variants.zip row.variants.toList)[v]? = some (variant, idx) :=
      List.getElem?_zip_eq_some.2 ⟨hvariant, hidx⟩
    obtain ⟨fields', hfields', -, hcopy⟩ :=
      (List.forall₂_iff_zip.1 hvariants).2 (List.mem_of_getElem? hzip)
    cases hfields.symm.trans hfields'
    exact hcopy.site h.checked nofun htype hslot
  | element hr hblock htuple hnode hrow htype hslot =>
    obtain ⟨k', row', hnode', hrow', hcopy⟩ := (h.checked.sound.resolutions _ hr).2 _ _ htuple
    cases hnode.symm.trans hnode'
    cases hrow.symm.trans hrow'
    exact hcopy.site h.checked hblock htype hslot
  | @argument r span path args isResult entry type slot i hr hblock hpath hblessed hfit he hentry
      htype hslot =>
    have hcalls := h.argument hr hpath hblessed hfit he hentry
    have hcall := (List.forall₂_iff_zip.1 hcalls).2
      (List.mem_of_getElem? (List.getElem?_zip_eq_some.2 ⟨htype, hslot⟩))
    exact Origin.site h.checked (.inl ⟨_, hcall, hblock, rfl, rfl⟩)

/-! ## The shape of a call -/

/-- The primitives that have a name. -/
theorem Sound.plain_node (h : Sound p table) (hi : i ≤ primitiveIdx .str)
    (hnode : table.storage.types[i]? = some node) : primitiveIdx node.tag = i := by
  have hnamed : ∀ i ≤ primitiveIdx .str, ∃ node, internPrimitives[i]? = some node ∧
      primitiveIdx node.tag = i := by decide
  obtain ⟨node', hprim, hidx⟩ := hnamed i hi
  cases hnode.symm.trans (getElem?_mono h.closed.prims hprim)
  exact hidx

theorem referenceTag_unnamed (isMut : Bool) :
    ¬ primitiveIdx (referenceTag isMut) ≤ primitiveIdx .str := by
  cases isMut <;> decide

theorem Sound.nominal_shape (h : Sound p table) {entry : NominalEntry} (he : entry ∈ table.nominals)
    (hs : entry.started = true) (hnode : table.storage.types[entry.type]? = some node) :
    Shape p table node (.node entry.type) := by
  obtain ⟨k, hk⟩ := h.entries entry he hs
  cases hnode.symm.trans hk
  refine .nominal ?_ he hs hnode
  cases entry.item with
  | struct decl => exact .inl rfl
  | enum decl => exact .inr rfl

section Calls

variable {module : Nat} {self : Option TypeIdx} {type : Ty}

theorem primitiveMeaning_cases (p : Package) (kind : PrimitiveKind) :
    primitiveMeaning p kind = .marker .error ∨
      ∃ idx ≤ primitiveIdx .str, primitiveMeaning p kind = .node idx := by
  have hint : primitiveIdx (if p.width = .w64 then .i64 else .i32) ≤ primitiveIdx .str := by
    split <;> decide
  have hnat : primitiveIdx (if p.width = .w64 then .u64 else .u32) ≤ primitiveIdx .str := by
    split <;> decide
  cases kind
  case isize => exact .inr ⟨_, hint, rfl⟩
  case usize => exact .inr ⟨_, hnat, rfl⟩
  case i128 | u128 => exact .inl rfl
  all_goals exact .inr ⟨_, by decide, rfl⟩

theorem shape_marker (h : Told p table) (hr : ⟨module, type, self, i⟩ ∈ table.resolutions)
    (hnode : table.storage.types[i]? = some node) {tag : TypeTag}
    (hm : meaning p (declared p table.nominals) module self type = .marker tag) :
    Shape p table node (typeAt p table module self type) := by
  have hshared := h.shared _ hr (by unfold Resolution.meaning; rw [hm]; rfl)
  unfold Resolution.meaning at hshared
  unfold typeAt
  rw [hm] at hshared ⊢
  cases hshared with
  | marker htag hslot =>
    obtain ⟨k, hk⟩ := markerSlot_some hslot
    cases hnode.symm.trans hk
    exact .marker htag

theorem call_node (h : Told p table) (hr : ⟨module, type, self, i⟩ ∈ table.resolutions)
    (hm : meaning p (declared p table.nominals) module self type = .node j) : i = j := by
  have hshared := h.shared _ hr (by unfold Resolution.meaning; rw [hm]; rfl)
  unfold Resolution.meaning at hshared
  rw [hm] at hshared
  cases hshared
  rfl

theorem shape_plain (h : Compared p table) (hr : ⟨module, type, self, i⟩ ∈ table.resolutions)
    (hnode : table.storage.types[i]? = some node) (hj : j ≤ primitiveIdx .str)
    (hm : meaning p (declared p table.nominals) module self type = .node j) :
    Shape p table node (typeAt p table module self type) := by
  obtain rfl := call_node h.told hr hm
  unfold typeAt
  obtain rfl := h.checked.sound.plain_node hj hnode
  rw [hm]
  exact .plain hj

theorem shape_declared (h : Compared p table) {path : Path} {args : List Ty} {span : Span}
    (hr : ⟨module, .path span path args, self, i⟩ ∈ table.resolutions)
    (hnode : table.storage.types[i]? = some node)
    (hm : meaning p (declared p table.nominals) module self (.path span path args) =
      declared p table.nominals module path) :
    Shape p table node (typeAt p table module self (.path span path args)) := by
  have hcases : (∃ tag, declared p table.nominals module path = .marker tag) ∨
      ∃ e, declared p table.nominals module path = .nominal e := by
    unfold declared
    split
    · exact .inl ⟨_, rfl⟩
    · split
      · exact .inl ⟨_, rfl⟩
      · exact .inr ⟨_, rfl⟩
  rcases hcases with ⟨tag, hmarker⟩ | ⟨e, hnominal⟩
  · exact shape_marker h.told hr hnode (hm.trans hmarker)
  · rw [hnominal] at hm
    have hshared := h.told.shared _ hr (by unfold Resolution.meaning; rw [hm]; rfl)
    unfold Resolution.meaning at hshared
    unfold typeAt
    rw [hm] at hshared ⊢
    cases hshared with
    | nominal he hs =>
      show Shape p table node (settledNominal table.nominals e)
      unfold settledNominal
      simp only [he, hs, if_true]
      exact h.checked.sound.nominal_shape (List.mem_of_getElem? he) hs hnode

/-- `Self` is the nominal of the block. -/
theorem shape_self (h : Compared p table) {path : Path} {args : List Ty} {span : Span}
    (hr : ⟨module, .path span path args, self, i⟩ ∈ table.resolutions)
    (hblock : InBlock table self)
    (hnode : table.storage.types[i]? = some node)
    (hm : meaning p (declared p table.nominals) module self (.path span path args) =
      selfMeaning args self) :
    Shape p table node (typeAt p table module self (.path span path args)) := by
  cases self with
  | none => exact shape_marker h.told hr hnode hm
  | some block =>
    unfold selfMeaning at hm
    dsimp only at hm
    split at hm
    · obtain rfl := call_node h.told hr hm
      obtain ⟨entry, he, hs, rfl⟩ := hblock _ rfl
      unfold typeAt
      rw [hm]
      exact h.checked.sound.nominal_shape he hs hnode
    · exact shape_marker h.told hr hnode hm

/-- The calls for the arguments of `Result` or `Option`. -/
theorem shape_blessed (h : Compared p table) {path : Path} {args : List Ty} {span : Span}
    {isResult : Bool} (hr : ⟨module, .path span path args, self, i⟩ ∈ table.resolutions)
    (hblock : InBlock table self)
    (hnode : table.storage.types[i]? = some node) (hself : singleSegment path ≠ some "Self")
    (hpath : blessedPath path = some isResult)
    (hm : meaning p (declared p table.nominals) module self (.path span path args) =
      blessedMeaning isResult (meanings p (declared p table.nominals) module self args)) :
    Shape p table node (typeAt p table module self (.path span path args)) := by
  by_cases hfit : args.length = blessedArity isResult
  case neg =>
    exact shape_marker h.told hr hnode (hm.trans (blessedMeaning_misfit (by rwa [meanings_length])))
  obtain ⟨entry, he, htype, hkind, hcalls⟩ := h.told.built _ hr hself isResult hpath hfit
  dsimp only at htype hcalls
  have hcall {type : Ty} {idx : TypeIdx} (hc : ⟨module, type, self, idx⟩ ∈ table.resolutions) :
      Call p table idx (typeAt p table module self type) :=
    ⟨_, hc, hblock, rfl, rfl⟩
  rw [← htype] at hnode
  have htag : node.tag = .enum := by
    obtain ⟨k, hk⟩ := h.checked.sound.blessed entry he
    cases hnode.symm.trans hk
    rfl
  unfold typeAt
  rw [hm]
  cases isResult with
  | true =>
    obtain ⟨ok, err, rfl⟩ := List.length_eq_two.1 hfit
    cases hargs : entry.args with
    | nil => rw [hargs] at hcalls; cases hcalls
    | cons first rest =>
      rw [hargs] at hcalls
      obtain ⟨hfirst, hrest⟩ := List.forall₂_cons.1 hcalls
      cases rest with
      | nil => cases hrest
      | cons second rest =>
        obtain ⟨hsecond, hend⟩ := List.forall₂_cons.1 hrest
        obtain rfl := List.forall₂_nil_left_iff.1 hend
        exact .result htag he hnode hkind hargs (hcall hfirst) (hcall hsecond)
  | false =>
    obtain ⟨payload, rfl⟩ := List.length_eq_one_iff.1 hfit
    cases hargs : entry.args with
    | nil => rw [hargs] at hcalls; cases hcalls
    | cons arg rest =>
      rw [hargs] at hcalls
      obtain ⟨harg, hend⟩ := List.forall₂_cons.1 hcalls
      obtain rfl := List.forall₂_nil_left_iff.1 hend
      exact .option htag he hnode hkind hargs (hcall harg)

end Calls

/-- The slots of a list of types. -/
theorem SlotsCopy.sites (h : Checked p table) {module : Nat} {self : Option TypeIdx}
    {types : List Ty} {slots : IdxRange} (hc : SlotsCopy table module self types slots)
    (hblock : InBlock table self) :
    List.Forall₂ (Site p table) slots.toList (types.map (typeAt p table module self)) := by
  have hlen : slots.toList.length = types.length := by
    rw [IdxRange.toList, List.length_range', hc.1]
  refine List.forall₂_iff_zip.2 ⟨by rw [hlen, List.length_map], fun hmem => ?_⟩
  obtain ⟨k, hk⟩ := List.mem_iff_getElem?.1 hmem
  obtain ⟨hslot, hm⟩ := List.getElem?_zip_eq_some.1 hk
  rw [List.getElem?_map] at hm
  obtain ⟨type, htype, rfl⟩ := Option.map_eq_some_iff.1 hm
  exact hc.site h hblock htype hslot

/-- **The node of a call has the shape of its type.** -/
theorem Call.shape (h : Compared p table) (hc : Call p table i m)
    (hnode : table.storage.types[i]? = some node) : Shape p table node m := by
  obtain ⟨⟨module, type, self, idx⟩, hr, hblock, rfl, rfl⟩ := hc
  dsimp only at hnode ⊢
  cases type with
  | primitive span kind =>
    have hm : meaning p (declared p table.nominals) module self (.primitive span kind) =
        primitiveMeaning p kind := by unfold meaning; rfl
    rcases primitiveMeaning_cases p kind with herror | ⟨j, hj, hj'⟩
    · exact shape_marker h.told hr hnode (hm.trans herror)
    · exact shape_plain h hr hnode hj (hm.trans hj')
  | unit span =>
    have hm : meaning p (declared p table.nominals) module self (.unit span) =
        .node (primitiveIdx .void) := by unfold meaning; rfl
    exact shape_plain h hr hnode (by decide) hm
  | never span =>
    have hm : meaning p (declared p table.nominals) module self (.never span) =
        .marker .never := by unfold meaning; rfl
    exact shape_marker h.told hr hnode hm
  | str span =>
    have hm : meaning p (declared p table.nominals) module self (.str span) =
        .node (primitiveIdx .str) := by unfold meaning; rfl
    exact shape_plain h hr hnode (by decide) hm
  | tuple span elements =>
    obtain ⟨k, row, hnode', hrow, hcopy⟩ := (h.checked.sound.resolutions _ hr).2 _ _ rfl
    cases hnode.symm.trans hnode'
    have hm : meaning p (declared p table.nominals) module self (.tuple span elements) =
        .tuple (meanings p (declared p table.nominals) module self elements) := by
      unfold meaning
      rfl
    unfold typeAt
    rw [hm]
    show Shape p table _ (.tuple (settledAll _ _))
    rw [settledAll_meanings]
    exact .tuple rfl hrow (hcopy.sites h.checked hblock)
  | ref span isMut inner =>
    obtain ⟨k, pointee, hnode', hrow, hcall⟩ := h.told.built _ hr
    cases hnode.symm.trans hnode'
    have hm : meaning p (declared p table.nominals) module self (.ref span isMut inner) =
        .ref isMut (meaning p (declared p table.nominals) module self inner) := by
      rw [meaning]
    unfold typeAt
    rw [hm]
    exact .ref rfl hrow ⟨_, hcall, hblock, rfl, rfl⟩
  | path span path args =>
    by_cases hself : singleSegment path = some "Self"
    · refine shape_self h hr hblock hnode ?_
      unfold meaning
      rw [if_pos hself]
    cases hpath : blessedPath path with
    | some isResult =>
      refine shape_blessed h hr hblock hnode hself hpath ?_
      unfold meaning
      rw [if_neg hself, hpath]
    | none =>
      by_cases hargs : args.isEmpty = true
      · refine shape_declared h hr hnode ?_
        unfold meaning
        simp only [if_neg hself, hpath, if_pos hargs]
      · have hm : meaning p (declared p table.nominals) module self (.path span path args) =
            .marker .error := by
          unfold meaning
          simp only [if_neg hself, hpath, if_neg hargs]
        exact shape_marker h.told hr hnode hm

theorem Site.shape (h : Compared p table) (hs : Site p table i m) :
    ∃ node, table.storage.types[i]? = some node ∧ Shape p table node m := by
  obtain ⟨origin, node, ho, hnode, hcopy⟩ := hs
  refine ⟨node, hcopy, ?_⟩
  rcases ho with hc | ⟨entry, he, hstarted, rfl, rfl⟩
  · exact hc.shape h hnode
  · exact h.checked.sound.nominal_shape he hstarted hnode

/-! ## The type of a node -/

namespace Shape

theorem of_plain (h : Shape p table node m) (htag : primitiveIdx node.tag ≤ primitiveIdx .str) :
    m = .node (primitiveIdx node.tag) := by
  have hno {tag : TypeTag} (h : node.tag = tag)
      (hlt : primitiveIdx .str < primitiveIdx tag) : False :=
    absurd (h ▸ htag) (Nat.not_le.2 hlt)
  cases h with
  | plain _ => rfl
  | nominal ht => exact (ht.elim (hno · (by decide)) (hno · (by decide))).elim
  | marker ht => exact (ht.elim (hno · (by decide)) (hno · (by decide))).elim
  | @ref isMut _ _ ht _ _ => exact (hno ht (by cases isMut <;> decide)).elim
  | tuple ht _ _ | option ht _ _ _ _ _ | result ht _ _ _ _ _ _ => exact (hno ht (by decide)).elim

theorem of_marker (h : Shape p table node m) (htag : node.tag = .never ∨ node.tag = .error) :
    m = .marker node.tag := by
  cases h with
  | plain hle => rcases htag with htag | htag <;> rw [htag] at hle <;> exact absurd hle (by decide)
  | marker _ => rfl
  | nominal ht => rcases htag with htag | htag <;> rw [htag] at ht <;> exact absurd ht (by decide)
  | @ref isMut _ _ ht _ _ =>
    rcases htag with htag | htag <;> rw [htag] at ht <;> cases isMut <;> cases ht
  | tuple ht _ _ | option ht _ _ _ _ _ | result ht _ _ _ _ _ _ =>
    rcases htag with htag | htag <;> cases htag.symm.trans ht

theorem of_ref {isMut : Bool} (h : Shape p table node m) (htag : node.tag = referenceTag isMut) :
    ∃ row pointee, m = .ref isMut pointee ∧ table.storage.refTypes[node.data]? = some row ∧
      Call p table row.pointee pointee := by
  cases h with
  | plain hle =>
    rw [htag] at hle
    exact absurd hle (referenceTag_unnamed isMut)
  | nominal ht =>
    rw [htag] at ht
    exact absurd ht (by cases isMut <;> decide)
  | marker ht =>
    rw [htag] at ht
    exact absurd ht (by cases isMut <;> decide)
  | @ref isMut' row pointee ht hrow hc =>
    obtain rfl : isMut' = isMut := by
      have heq := ht.symm.trans htag
      cases isMut' <;> cases isMut <;> first | rfl | cases heq
    exact ⟨row, pointee, rfl, hrow, hc⟩
  | tuple ht _ _ | option ht _ _ _ _ _ | result ht _ _ _ _ _ _ =>
    have heq := ht.symm.trans htag
    cases isMut <;> cases heq

theorem of_tuple (h : Shape p table node m) (htag : node.tag = .tuple) :
    ∃ row ms, m = .tuple ms ∧ table.storage.tupleTypes[node.data]? = some row ∧
      List.Forall₂ (Site p table) row.elements.toList ms := by
  cases h with
  | plain hle =>
    rw [htag] at hle
    exact absurd hle (by decide)
  | nominal ht | marker ht =>
    rw [htag] at ht
    exact absurd ht (by decide)
  | @ref isMut _ _ ht _ _ =>
    have heq := ht.symm.trans htag
    cases isMut <;> cases heq
  | @tuple row ms ht hrow hslots => exact ⟨row, ms, rfl, hrow, hslots⟩
  | option ht _ _ _ _ _ | result ht _ _ _ _ _ _ => cases ht.symm.trans htag

/-- The nominal or the instance of `Result` or `Option` that has the node. -/
theorem of_nominal (h : Shape p table node m) (htag : node.tag = .struct ∨ node.tag = .enum) :
    (∃ entry ∈ table.nominals, entry.started = true ∧
      table.storage.types[entry.type]? = some node ∧ m = .node entry.type) ∨
    ∃ entry ∈ table.blessed, table.storage.types[entry.type]? = some node ∧
      ((∃ arg payload, entry.isResult = false ∧ entry.args = [arg] ∧ Call p table arg payload ∧
        m = .option payload) ∨
      ∃ first second ok err, entry.isResult = true ∧ entry.args = [first, second] ∧
        Call p table first ok ∧ Call p table second err ∧ m = .result ok err) := by
  cases h with
  | plain hle => rcases htag with htag | htag <;> rw [htag] at hle <;> exact absurd hle (by decide)
  | marker ht => rcases htag with htag | htag <;> rw [htag] at ht <;> exact absurd ht (by decide)
  | @ref isMut _ _ ht _ _ =>
    rcases htag with htag | htag <;> rw [htag] at ht <;> cases isMut <;> cases ht
  | tuple ht _ _ => rcases htag with htag | htag <;> cases htag.symm.trans ht
  | @nominal entry _ he hs hnode => exact .inl ⟨entry, he, hs, hnode, rfl⟩
  | @option entry arg payload _ he hnode hkind hargs hc =>
    exact .inr ⟨entry, he, hnode, .inl ⟨arg, payload, hkind, hargs, hc, rfl⟩⟩
  | @result entry first second ok err _ he hnode hkind hargs hok herr =>
    exact .inr ⟨entry, he, hnode, .inr ⟨first, second, ok, err, hkind, hargs, hok, herr, rfl⟩⟩

end Shape

theorem Call.hasNode (h : Checked p table) (hc : Call p table i m) :
    ∃ node, table.storage.types[i]? = some node :=
  ⟨_, List.getElem?_eq_getElem (Origin.lt h (.inl hc))⟩

/-- Nominals and instances of `Result` and `Option` are told by their nodes. -/
theorem Sound.nominal_eq (h : Sound p table) {entry entry' : NominalEntry}
    (he : entry ∈ table.nominals) (he' : entry' ∈ table.nominals) (hs : entry.started = true)
    (hs' : entry'.started = true)
    (heq : table.storage.types[entry.type]? = table.storage.types[entry'.type]?) :
    entry = entry' := by
  obtain ⟨e, he⟩ := List.mem_iff_getElem?.1 he
  obtain ⟨e', he'⟩ := List.mem_iff_getElem?.1 he'
  obtain rfl := h.distinct e e' entry entry' he he' hs hs' heq
  exact Option.some.inj (he.symm.trans he')

mutual

/-- **A node has one type.** -/
theorem Shape.unique (h : Compared p table) : ∀ (m : Meaning) {m' : Meaning} {node : TypeNode},
    Shape p table node m → Shape p table node m' → m = m'
  | .node idx, m', node, hs, hs' => by
    cases hs with
    | plain hle => exact (hs'.of_plain hle).symm
    | @nominal entry htag he hstarted hnode =>
      rcases hs'.of_nominal htag with ⟨entry', he', hstarted', hnode', rfl⟩ | ⟨inst, hi, hnode', -⟩
      · rw [h.checked.sound.nominal_eq he he' hstarted hstarted' (hnode.trans hnode'.symm)]
      · exact absurd (hnode.trans hnode'.symm) (h.tidy.distinct.apart entry he hstarted inst hi)
  | .marker tag, m', node, hs, hs' => by
    cases hs with
    | marker htag => exact (hs'.of_marker htag).symm
  | .nominal e, m', node, hs, hs' => nomatch hs
  | .tuple ms, m', node, hs, hs' => by
    cases hs with
    | tuple htag hrow hslots =>
      obtain ⟨row', ms', rfl, hrow', hslots'⟩ := hs'.of_tuple htag
      cases hrow.symm.trans hrow'
      exact congrArg Meaning.tuple (Sites.unique h ms hslots hslots')
  | .ref isMut pointee, m', node, hs, hs' => by
    cases hs with
    | ref htag hrow hc =>
      obtain ⟨row', pointee', rfl, hrow', hc'⟩ := hs'.of_ref htag
      cases hrow.symm.trans hrow'
      obtain ⟨inner, hinner⟩ := hc.hasNode h.checked
      exact congrArg (Meaning.ref isMut)
        (Shape.unique h pointee (hc.shape h hinner) (hc'.shape h hinner))
  | .option payload, m', node, hs, hs' => by
    cases hs with
    | option htag he hnode hkind hargs hc =>
      rcases hs'.of_nominal (.inr htag) with ⟨entry', he', hstarted', hnode', -⟩ |
        ⟨inst, hi, hnode', hinst⟩
      · exact absurd (hnode'.trans hnode.symm) (h.tidy.distinct.apart entry' he' hstarted' _ he)
      obtain rfl := h.tidy.distinct.instance_eq he hi (hnode.trans hnode'.symm)
      rcases hinst with ⟨arg, payload', -, hargs', hc', rfl⟩ | ⟨_, _, _, _, hkind', -⟩
      · cases hargs.symm.trans hargs'
        obtain ⟨inner, hinner⟩ := hc.hasNode h.checked
        exact congrArg Meaning.option
          (Shape.unique h payload (hc.shape h hinner) (hc'.shape h hinner))
      · cases hkind.symm.trans hkind'
  | .result ok err, m', node, hs, hs' => by
    cases hs with
    | result htag he hnode hkind hargs hok herr =>
      rcases hs'.of_nominal (.inr htag) with ⟨entry', he', hstarted', hnode', -⟩ |
        ⟨inst, hi, hnode', hinst⟩
      · exact absurd (hnode'.trans hnode.symm) (h.tidy.distinct.apart entry' he' hstarted' _ he)
      obtain rfl := h.tidy.distinct.instance_eq he hi (hnode.trans hnode'.symm)
      rcases hinst with ⟨_, _, hkind', -⟩ | ⟨_, _, ok', err', -, hargs', hok', herr', rfl⟩
      · cases hkind.symm.trans hkind'
      · cases hargs.symm.trans hargs'
        obtain ⟨first, hfirst⟩ := hok.hasNode h.checked
        obtain ⟨second, hsecond⟩ := herr.hasNode h.checked
        rw [Shape.unique h ok (hok.shape h hfirst) (hok'.shape h hfirst),
          Shape.unique h err (herr.shape h hsecond) (herr'.shape h hsecond)]

theorem Sites.unique (h : Compared p table) : ∀ (ms : List Meaning) {ms' : List Meaning}
    {slots : List TypeIdx}, List.Forall₂ (Site p table) slots ms →
    List.Forall₂ (Site p table) slots ms' → ms = ms'
  | [], ms', slots, hs, hs' => by
    cases hs
    exact (List.forall₂_nil_left_iff.1 hs').symm
  | m :: ms, ms', slots, hs, hs' => by
    cases hs with
    | cons hfirst hrest =>
      obtain ⟨m', ms', hfirst', hrest', rfl⟩ := List.forall₂_cons_left_iff.1 hs'
      obtain ⟨node, hnode, hshape⟩ := hfirst.shape h
      obtain ⟨node', hnode', hshape'⟩ := hfirst'.shape h
      cases hnode.symm.trans hnode'
      rw [Shape.unique h m hshape hshape', Sites.unique h ms hrest hrest']

end

theorem Site.unique (h : Compared p table) (hs : Site p table i m) (hs' : Site p table i m') :
    m = m' := by
  obtain ⟨node, hnode, hshape⟩ := hs.shape h
  obtain ⟨node', hnode', hshape'⟩ := hs'.shape h
  cases hnode.symm.trans hnode'
  exact hshape.unique h m hshape'

/-! ## Indexes of one type -/

/-- Without a tuple that has elements a type has one index. -/
theorem Call.eq_of_tupleFree (h : Told p table) (hc : Call p table i m) (hc' : Call p table j m)
    (hfree : m.tupleFree = true) : i = j := by
  have hshared {i : TypeIdx} (hc : Call p table i m) : Interned (fun _ => True) table m i := by
    obtain ⟨r, hr, -, rfl, rfl⟩ := hc
    exact (h.shared r hr ((Meaning.tupleFree_settled _ _).symm.trans hfree)).settled
  exact (hshared hc).unique (hshared hc')

theorem Call.first (h : Told p table) (hc : Call p table i m) (hfree : m.tupleFree = false) :
    First table.storage i := by
  obtain ⟨r, hr, -, rfl, rfl⟩ := hc
  exact h.first r hr ((Meaning.tupleFree_settled _ _).symm.trans hfree)

theorem First.eq {s : Storage} (h : First s i) (h' : First s j)
    (heq : s.types[i]? = s.types[j]?) : i = j := by
  rcases Nat.lt_trichotomy i j with hlt | heq' | hlt
  · exact absurd heq (h'.2 i h.1 hlt)
  · exact heq'
  · exact absurd heq.symm (h.2 j h'.1 hlt)

/-- Only the named primitives and what follows the primitives are returned. -/
theorem Call.reached (h : Compared p table) (hc : Call p table i m) :
    i ≤ primitiveIdx .str ∨ kPrimitiveTypeCount + 1 ≤ i := by
  cases hfree : m.tupleFree with
  | false => exact .inr (hc.first h.told hfree).1
  | true =>
    obtain ⟨r, hr, hblock, rfl, rfl⟩ := hc
    refine (Nat.lt_or_ge r.idx (kPrimitiveTypeCount + 1)).imp (fun hlt => ?_) id
    have hshared := h.told.shared r hr ((Meaning.tupleFree_settled _ _).symm.trans hfree)
    rcases hshared.primitive h.checked.sound hlt with hnamed | hself
    · exact hnamed
    · obtain ⟨entry, he, hs, htype⟩ := hblock _ hself
      obtain ⟨k, hk⟩ := h.checked.sound.entries entry he hs
      rw [htype] at hk
      refine absurd hk (h.checked.sound.primitive_ne hlt ?_)
      cases entry.item with
      | struct decl => exact .inl rfl
      | enum decl => exact .inr (.inl rfl)

/-- The other types are apart under the nodes of their declarations too. -/
theorem Apart.settled {s : Storage} {other idx : TypeIdx} (h : Apart s other m idx)
    (nominals : List NominalEntry) : Apart s other (m.settled nominals) idx := by
  intro hfree
  rw [Meaning.tupleFree_settled] at hfree
  have hm := h hfree
  cases m with
  | ref isMut pointee => exact hm
  | tuple ms =>
    intro k k' row row' hne hnode hrow hnode' hrow' slot hslot part hpart
    change part ∈ (settledAll nominals ms).zip row'.elements.toList at hpart
    rw [settledAll_eq, List.zip_map_left] at hpart
    obtain ⟨⟨m, idx⟩, hmem, rfl⟩ := List.mem_map.1 hpart
    have hpair := hm k k' row row' hne hnode hrow hnode' hrow' slot hslot _ hmem
    refine hpair.imp id fun hnodes hpart => hnodes ?_
    rwa [Prod.map_fst, Meaning.tupleFree_settled] at hpart
  | nominal e => cases hfree
  | node idx | marker tag | option m | result m m' => trivial

theorem Told.apart_or (h : Told p table) {r r' : Resolution} (hr : r ∈ table.resolutions)
    (hr' : r' ∈ table.resolutions) (hne : r ≠ r') :
    Apart table.storage r.idx (typeAt p table r'.module r'.self r'.type) r'.idx ∨
      Apart table.storage r'.idx (typeAt p table r.module r.self r.type) r.idx := by
  obtain ⟨k, hk, rfl⟩ := List.mem_iff_getElem.1 hr
  obtain ⟨k', hk', rfl⟩ := List.mem_iff_getElem.1 hr'
  have hordered := List.pairwise_iff_getElem.1 h.apart
  rcases Nat.lt_trichotomy k k' with hlt | rfl | hlt
  · exact .inl ((hordered k k' hk hk' hlt).settled _)
  · exact absurd rfl hne
  · exact .inr ((hordered k' k hk' hk hlt).settled _)

/-- The same for calls of one type that have different nodes. -/
theorem Call.apart_or (h : Told p table) (hc : Call p table i m) (hc' : Call p table j m)
    (hne : i ≠ j) : Apart table.storage i m j ∨ Apart table.storage j m i := by
  obtain ⟨r, hr, -, rfl, rfl⟩ := hc
  obtain ⟨r', hr', -, rfl, hm⟩ := hc'
  have hpair := h.apart_or hr hr' fun heq => hne (congrArg Resolution.idx heq)
  rwa [hm] at hpair

/-! ## When two indexes are alike -/

theorem Site.call (hs : Site p table i m) (hm : ∀ idx, m ≠ .node idx)
    (hnode : table.storage.types[i]? = some node) :
    ∃ origin, Call p table origin m ∧ table.storage.types[origin]? = some node := by
  obtain ⟨origin, node', hc | ⟨_, _, _, _, rfl⟩, horigin, hcopy⟩ := hs
  · cases hnode.symm.trans hcopy
    exact ⟨origin, hc, horigin⟩
  · exact absurd rfl (hm _)

theorem Meaning.comparable_ref {isMut : Bool} :
    (Meaning.ref isMut m).comparable = true ↔ m.tupleFree = true ∨ m.comparable = true := by
  rw [Meaning.comparable, Bool.or_eq_true]

theorem allComparable_iff {ms : List Meaning} :
    allComparable ms = true ↔ ∀ m ∈ ms, m.comparable = true := by
  induction ms with
  | nil => simp [allComparable]
  | cons m ms ih => rw [allComparable, Bool.and_eq_true, ih, List.forall_mem_cons]

/-- What is no struct and no enum, has no tuple with elements and is not recognized. -/
theorem Shape.tag_of_incomparable (h : Shape p table node m) (hfree : m.tupleFree = true)
    (hm : m.comparable = false) : node.tag = .struct ∨ node.tag = .enum := by
  cases h with
  | plain hle =>
    rw [Meaning.comparable, decide_eq_false_iff_not] at hm
    exact absurd hle hm
  | nominal htag => exact htag
  | marker _ => cases hm
  | ref _ _ _ => exact absurd (hm.symm.trans (Meaning.comparable_ref.2 (.inl hfree))) nofun
  | @tuple row ms _ _ _ =>
    obtain rfl := List.isEmpty_iff.1 hfree
    cases hm
  | option htag _ _ _ _ _ | result htag _ _ _ _ _ _ => exact .inr htag

section Alike

variable {left right : TypeNode} (h : Compared p table) (ha : table.storage.types[a]? = some left)
  (hb : table.storage.types[b]? = some right)
include h ha hb

/-- Types with different nodes come from calls that are apart. -/
theorem calls_apart (hs : Site p table a m) (hs' : Site p table b m) (hm : ∀ idx, m ≠ .node idx)
    (hne : left ≠ right) : ∃ i j, table.storage.types[i]? = some left ∧
      table.storage.types[j]? = some right ∧
      (Apart table.storage i m j ∨ Apart table.storage j m i) := by
  obtain ⟨i, hi, hinode⟩ := hs.call hm ha
  obtain ⟨j, hj, hjnode⟩ := hs'.call hm hb
  refine ⟨i, j, hinode, hjnode, hi.apart_or h.told hj ?_⟩
  rintro rfl
  exact hne (Option.some.inj (hinode.symm.trans hjnode))

/-- **References are alike with what they point to.** -/
theorem alike_ref {isMut : Bool} {row row' : RefType} (hs : Site p table a (.ref isMut m))
    (hs' : Site p table b (.ref isMut m)) (hleft : left.tag = referenceTag isMut)
    (hright : right.tag = referenceTag isMut) (hrow : table.storage.refTypes[left.data]? = some row)
    (hrow' : table.storage.refTypes[right.data]? = some row') (hc : Call p table row.pointee m)
    (hc' : Call p table row'.pointee m) :
    Alike table.storage row.pointee row'.pointee m ↔ Alike table.storage a b (.ref isMut m) := by
  obtain ⟨tag, k⟩ := left
  obtain ⟨tag', k'⟩ := right
  obtain rfl : tag = referenceTag isMut := hleft
  obtain rfl : tag' = referenceTag isMut := hright
  have hplain : referenceTag isMut ≠ .struct ∧ referenceTag isMut ≠ .enum := by
    cases isMut <;> exact ⟨nofun, nofun⟩
  -- with a tuple in it the target has one reference
  have hrows (hfree : m.tupleFree = false) (heq : row.pointee = row'.pointee) :
      SameNode table.storage a b := by
    by_cases hk : k = k'
    · exact ⟨_, ha, hk ▸ hb, hplain⟩
    obtain ⟨i, j, hinode, hjnode, hap | hap⟩ :=
      calls_apart h ha hb hs hs' nofun fun heq => hk (congrArg TypeNode.data heq)
    · exact absurd heq (hap hfree k k' row row' hk hinode hrow hjnode hrow')
    · exact absurd heq.symm (hap hfree k' k row' row (Ne.symm hk) hjnode hrow' hinode hrow)
  constructor
  · intro halike
    cases hfree : m.tupleFree with
    | true => exact .inr (.inr (Meaning.comparable_ref.2 (.inl hfree)))
    | false =>
      rcases halike with heq | ⟨node, hnode, hnode', -⟩ | hm
      · exact .inr (.inl (hrows hfree heq))
      · have hfirst := (hc.first h.told hfree).eq (hc'.first h.told hfree)
        exact .inr (.inl (hrows hfree (hfirst (hnode.trans hnode'.symm))))
      · exact .inr (.inr (Meaning.comparable_ref.2 (.inr hm)))
  · rintro (rfl | ⟨node, hnode, hnode', -⟩ | hm)
    · cases ha.symm.trans hb
      cases hrow.symm.trans hrow'
      exact .inl rfl
    · cases ha.symm.trans hnode
      cases hb.symm.trans hnode'
      cases hrow.symm.trans hrow'
      exact .inl rfl
    · rcases Meaning.comparable_ref.1 hm with hfree | hm
      · exact .inl (hc.eq_of_tupleFree h.told hc' hfree)
      · exact .inr (.inr hm)

/-- **Tuples are alike with their elements.** -/
theorem alike_tuple {ms : List Meaning} {row row' : TupleType} (hs : Site p table a (.tuple ms))
    (hs' : Site p table b (.tuple ms)) (hleft : left.tag = .tuple) (hright : right.tag = .tuple)
    (hrow : table.storage.tupleTypes[left.data]? = some row)
    (hrow' : table.storage.tupleTypes[right.data]? = some row')
    (hslots : List.Forall₂ (Site p table) row.elements.toList ms)
    (hslots' : List.Forall₂ (Site p table) row'.elements.toList ms) :
    (∀ part ∈ ms.zip (row.elements.toList.zip row'.elements.toList),
      Alike table.storage part.2.1 part.2.2 part.1) ↔ Alike table.storage a b (.tuple ms) := by
  obtain ⟨tag, k⟩ := left
  obtain ⟨tag', k'⟩ := right
  obtain rfl : tag = .tuple := hleft
  obtain rfl : tag' = .tuple := hright
  constructor
  · intro hall
    cases hfree : (Meaning.tuple ms).tupleFree with
    | true =>
      obtain rfl := List.isEmpty_iff.1 hfree
      exact .inr (.inr rfl)
    | false =>
      by_cases hk : k = k'
      · exact .inr (.inl ⟨_, ha, hk ▸ hb, nofun, nofun⟩)
      refine .inr (.inr (allComparable_iff.2 fun m hm => ?_))
      obtain ⟨n, hn⟩ := List.mem_iff_getElem?.1 hm
      obtain ⟨x, hx⟩ := getElem?_of_length hslots.length_eq hn
      obtain ⟨y, hy⟩ := getElem?_of_length hslots'.length_eq hn
      have hpart : Alike table.storage x y m :=
        hall (m, x, y) (List.mem_of_getElem? (i := n) (by
          rw [List.getElem?_zip_eq_some]
          exact ⟨hn, List.getElem?_zip_eq_some.2 ⟨hx, hy⟩⟩))
      -- the two slots are different, and so are the nodes of a type with a tuple
      have hdiffer : x ≠ y ∧ (m.tupleFree = false →
          table.storage.types[x]? ≠ table.storage.types[y]?) := by
        obtain ⟨i, j, hinode, hjnode, hap | hap⟩ :=
          calls_apart h ha hb hs hs' nofun fun heq => hk (congrArg TypeNode.data heq)
        · exact hap hfree k k' row row' hk hinode hrow hjnode hrow' x (List.mem_of_getElem? hx)
            (m, y) (List.mem_of_getElem? (List.getElem?_zip_eq_some.2 ⟨hn, hy⟩))
        · have hback := hap hfree k' k row' row (Ne.symm hk) hjnode hrow' hinode hrow y
            (List.mem_of_getElem? hy) (m, x)
            (List.mem_of_getElem? (List.getElem?_zip_eq_some.2 ⟨hn, hx⟩))
          exact ⟨hback.1.symm, fun hm => (hback.2 hm).symm⟩
      rcases hpart with heq | ⟨node, hnode, hnode', htag⟩ | hm
      · exact absurd heq hdiffer.1
      · cases hmfree : m.tupleFree with
        | false => exact absurd (hnode.trans hnode'.symm) (hdiffer.2 hmfree)
        | true =>
          by_contra hm
          have hsite : Site p table x m := (List.forall₂_iff_zip.1 hslots).2
            (List.mem_of_getElem? (List.getElem?_zip_eq_some.2 ⟨hx, hn⟩))
          obtain ⟨node', hxnode, hshape⟩ := hsite.shape h
          cases hnode.symm.trans hxnode
          exact (hshape.tag_of_incomparable hmfree (Bool.eq_false_iff.2 hm)).elim htag.1 htag.2
      · exact hm
  · rintro halike ⟨m, x, y⟩ hpart
    obtain ⟨n, hn⟩ := List.mem_iff_getElem?.1 hpart
    obtain ⟨hm, hxy⟩ := List.getElem?_zip_eq_some.1 hn
    obtain ⟨hx, hy⟩ := List.getElem?_zip_eq_some.1 hxy
    have hrows (heq : k = k') : x = y := by
      cases heq
      cases hrow.symm.trans hrow'
      exact Option.some.inj (hx.symm.trans hy)
    rcases halike with rfl | ⟨node, hnode, hnode', -⟩ | hcomp
    · cases ha.symm.trans hb
      exact .inl (hrows rfl)
    · cases ha.symm.trans hnode
      cases hb.symm.trans hnode'
      exact .inl (hrows rfl)
    · exact .inr (.inr (allComparable_iff.1 hcomp m (List.mem_of_getElem? hm)))

end Alike

end Alcy.Analyzer.Types
