import Alcy.Analyzer.Types
import Alcy.Lib.Contracts

/-! # What resolving types leaves alone

While bodies are checked, the types that they mention are resolved. That adds to the type table and
to the diagnostics; what the modules declare stays as it is.
-/
namespace Alcy.Analyzer.Types
open Alcy.Ast Alcy.Diag Alcy.Ir
open Alcy.Lib.Contracts (Leaves bind_some)

/-- The declaration of an entry. -/
def NominalEntry.declaration (entry : NominalEntry) : Nat × NominalItem := (entry.module, entry.item)

/-- What is declared stays, the type table only grows, and no diagnostic is taken back. -/
structure Onward (st st' : CheckState) : Prop where
  modules : st'.modules = st.modules
  bag : st.bag <+: st'.bag
  storage : st.table.storage.Extends st'.table.storage
  nominals : st'.table.nominals.map (·.declaration) = st.table.nominals.map (·.declaration)
  complete : ∀ (e : Nat) (entry : NominalEntry), st.table.nominals[e]? = some entry →
    entry.complete = true → st'.table.nominals[e]? = some entry

instance : Std.Refl Onward := ⟨fun _ => ⟨rfl, List.prefix_rfl, .refl _, rfl, fun _ _ h _ => h⟩⟩

instance : IsTrans CheckState Onward :=
  ⟨fun _ _ _ h h' => ⟨h'.modules.trans h.modules, h.bag.trans h'.bag, h.storage.trans h'.storage,
    h'.nominals.trans h.nominals, fun e entry he hc => h'.complete e entry (h.complete e entry he hc) hc⟩⟩

/-- When nothing is reported along the way, nothing is reported on either part of it. -/
theorem Onward.silent {st st' st'' : CheckState} (h : Onward st st') (h' : Onward st' st'')
    (hbag : st''.bag = st.bag) : st'.bag = st.bag ∧ st''.bag = st'.bag := by
  have hfirst : st.bag = st'.bag := by
    refine h.bag.eq_of_length_le ?_
    rw [← hbag]
    exact h'.bag.length_le
  exact ⟨hfirst.symm, hbag.trans hfirst⟩

instance : Std.Refl Storage.Extends := ⟨.refl⟩

instance : IsTrans Storage Storage.Extends := ⟨fun _ _ _ h h' => h.trans h'⟩

/-! ## Building -/

theorem pushType_extends (node : TypeNode) : Leaves Storage.Extends (StorageBuilder.pushType node) := by
  intro s idx s' h
  cases h
  exact { Storage.Extends.refl s with types := List.prefix_append _ _ }

/-- A row is appended with the node that refers to it. -/
theorem withRow_extends {s s₁ s' : Storage} {node : TypeNode} {idx : TypeIdx}
    (h : StorageBuilder.pushType node s₁ = some (idx, s')) (hs : s.Extends s₁) : s.Extends s' :=
  hs.trans (pushType_extends node s₁ idx s' h)

theorem neverType_extends : Leaves Storage.Extends StorageBuilder.neverType := by
  intro s idx s' h
  unfold StorageBuilder.neverType StorageBuilder.markerType at h
  split at h
  · cases h
    exact .refl s
  · exact pushType_extends _ s idx s' h

theorem errorType_extends : Leaves Storage.Extends StorageBuilder.errorType := by
  intro s idx s' h
  unfold StorageBuilder.errorType StorageBuilder.markerType at h
  split at h
  · cases h
    exact .refl s
  · exact pushType_extends _ s idx s' h

theorem referenceType_extends (pointee : TypeIdx) (isMut : Bool) :
    Leaves Storage.Extends (StorageBuilder.referenceType pointee isMut) := by
  intro s idx s' h
  unfold StorageBuilder.referenceType at h
  dsimp only at h
  split at h
  · cases h
    exact .refl s
  · exact withRow_extends h { Storage.Extends.refl s with refs := List.prefix_append _ _ }

theorem tupleType_extends (elements : IdxRange) :
    Leaves Storage.Extends (StorageBuilder.tupleType elements) := by
  intro s idx s' h
  unfold StorageBuilder.tupleType at h
  dsimp only at h
  split at h
  · cases h
    exact .refl s
  · exact withRow_extends h { Storage.Extends.refl s with tuples := List.prefix_append _ _ }

theorem enumType_extends (name : StringPoolId) (variants : IdxRange) :
    Leaves Storage.Extends (StorageBuilder.enumType name variants) := by
  intro s idx s' h
  unfold StorageBuilder.enumType at h
  exact withRow_extends h { Storage.Extends.refl s with enums := List.prefix_append _ _ }

theorem enumVariant_extends (name : StringPoolId) (fields : IdxRange) :
    Leaves Storage.Extends (StorageBuilder.enumVariant name fields) := by
  intro s idx s' h
  cases h
  exact { Storage.Extends.refl s with variants := List.prefix_append _ _ }

theorem copySeq_extends (types : List TypeIdx) :
    Leaves Storage.Extends (StorageBuilder.copySeq types) := by
  have hslot (seq : SeqBuilder) (type : TypeIdx) :
      Leaves Storage.Extends (StorageBuilder.copySlot seq type) := by
    refine Leaves.bind ?_ fun slot => .lift _
    intro s idx s' h
    obtain ⟨node, _, h⟩ := Option.bind_eq_some_iff.1 h
    exact pushType_extends node s idx s' h
  have hfold (seq : SeqBuilder) :
      Leaves Storage.Extends (types.foldlM StorageBuilder.copySlot seq) := by
    induction types generalizing seq with
    | nil => exact .pure seq
    | cons type types ih =>
      rw [List.foldlM_cons]
      exact (hslot seq type).bind ih
  exact (hfold _).bind fun _ => .pure _

/-! ## Steps of the checker -/

variable {p : Package}

theorem report_onward {code : Nat} {span : Span} {message : String} :
    Leaves Onward (report code span message) :=
  .modify fun _ => ⟨rfl, List.prefix_append _ _, .refl _, rfl, fun _ _ h _ => h⟩

/-- A change of the table that is none to its types and nominals. -/
theorem modifyTable_onward {f : Table → Table} (hs : ∀ table, (f table).storage = table.storage)
    (hn : ∀ table, (f table).nominals = table.nominals) : Leaves Onward (modifyTable f) := by
  refine .modify fun st => ⟨rfl, List.prefix_rfl, ?_, ?_, fun e entry he _ => ?_⟩
  · show st.table.storage.Extends (f st.table).storage
    rw [hs]
    exact .refl _
  · show (f st.table).nominals.map _ = _
    rw [hn]
  · show (f st.table).nominals[e]? = _
    rw [hn, he]

theorem build_onward {α : Type} {m : Build α} (hm : Leaves Storage.Extends m) :
    Leaves Onward (build m) := by
  intro st a st' h
  obtain ⟨r, hr, heq⟩ := Option.bind_eq_some_iff.1 h
  cases heq
  exact ⟨rfl, List.prefix_rfl, hm _ _ _ hr, rfl, fun _ _ h _ => h⟩

theorem errorType_onward : Leaves Onward errorType := build_onward errorType_extends

/-- An error, after which the type is unknown. -/
theorem rejected_onward {code : Nat} {span : Span} {message : String} :
    Leaves Onward (do report code span message; errorType) :=
  report_onward.bind fun _ => errorType_onward

theorem resolveTypePath_onward {module : Nat} {path : Path} :
    Leaves Onward (resolveTypePath p module path) := by
  unfold resolveTypePath
  split
  · exact .pure _
  · split
    · exact report_onward.bind fun _ => .pure _
    · exact .pure _

theorem primitiveType_onward {kind : PrimitiveKind} {span : Span} :
    Leaves Onward (primitiveType p kind span) := by
  cases kind with
  | i128 => exact rejected_onward
  | u128 => exact rejected_onward
  | _ => exact .pure _

theorem selfType_onward {span : Span} {args : List Ty} {self : Option TypeIdx} :
    Leaves Onward (selfType span args self) := by
  unfold selfType
  split
  · exact rejected_onward
  · split
    · exact .pure _
    · exact rejected_onward

theorem internBlessed_onward {isResult : Bool} {args : List TypeIdx} :
    Leaves Onward (internBlessed p isResult args) := by
  refine Leaves.get.bind fun st => ?_
  split
  · exact .pure _
  · refine (Leaves.lift _).bind fun first => (build_onward (enumVariant_extends _ _)).bind fun ok => ?_
    refine (Leaves.lift _).bind fun variants => (Leaves.lift _).bind fun payload => ?_
    refine (build_onward (enumVariant_extends _ _)).bind fun err => ?_
    refine (Leaves.lift _).bind fun variants => ?_
    refine (build_onward (enumType_extends _ _)).bind fun type => ?_
    refine Leaves.bind ?_ fun _ => .pure _
    exact modifyTable_onward (fun _ => rfl) fun _ => rfl

theorem recorded_onward {module : Nat} {type : Ty} {self : Option TypeIdx} {m : CheckM TypeIdx}
    (h : Leaves Onward m) : Leaves Onward (recorded module type self m) := by
  refine h.bind fun idx => Leaves.bind ?_ fun _ => .pure _
  exact modifyTable_onward (fun _ => rfl) fun _ => rfl

section Resolve

variable {intern : Nat → CheckM TypeIdx} {module : Nat} {self : Option TypeIdx}

theorem nominalType_onward (hi : ∀ e, Leaves Onward (intern e)) {span : Span} {path : Path} :
    Leaves Onward (nominalType p intern module span path) := by
  refine resolveTypePath_onward.bind fun target => ?_
  split
  · exact errorType_onward
  · refine Leaves.get.bind fun st => ?_
    split
    · exact rejected_onward
    · exact hi _

mutual

theorem resolveType_onward (hi : ∀ e, Leaves Onward (intern e)) : ∀ type : Ty,
    Leaves Onward (resolveType p intern module self type)
  | .primitive span kind => by
    unfold resolveType
    exact recorded_onward primitiveType_onward
  | .unit span => by
    unfold resolveType
    exact recorded_onward (.pure _)
  | .never span => by
    unfold resolveType
    exact recorded_onward (build_onward neverType_extends)
  | .str span => by
    unfold resolveType
    exact recorded_onward (.pure _)
  | .tuple span elements => by
    unfold resolveType
    exact recorded_onward ((resolveTypes_onward hi elements).bind fun _ =>
      (build_onward (copySeq_extends _)).bind fun _ => build_onward (tupleType_extends _))
  | .ref span isMut inner => by
    unfold resolveType
    exact recorded_onward ((resolveType_onward hi inner).bind fun _ =>
      build_onward (referenceType_extends _ _))
  | .path span path args => by
    unfold resolveType
    refine recorded_onward ?_
    split
    · exact selfType_onward
    split
    · split
      · exact rejected_onward
      · exact (resolveTypes_onward hi args).bind fun _ => internBlessed_onward
    · split
      · exact nominalType_onward hi
      · exact rejected_onward

theorem resolveTypes_onward (hi : ∀ e, Leaves Onward (intern e)) : ∀ types : List Ty,
    Leaves Onward (resolveTypes p intern module self types)
  | [] => by
    unfold resolveTypes
    exact .pure _
  | type :: types => by
    unfold resolveTypes
    exact (resolveType_onward hi type).bind fun _ =>
      (resolveTypes_onward hi types).bind fun _ => .pure _

end

end Resolve

theorem nominal_onward {e : Nat} : Leaves Onward (nominal e) := by
  intro st entry st' h
  obtain ⟨_, _, hr⟩ := Option.bind_eq_some_iff.1 h
  cases hr
  exact Std.Refl.refl st

theorem fillVariants_onward : ∀ (variants : List EnumVariant) (payloads : List (List TypeIdx))
    (seq : SeqBuilder), Leaves Onward (fillVariants p variants payloads seq)
  | [], _, _ => by
    unfold fillVariants
    exact .pure _
  | _ :: _, [], _ => by
    unfold fillVariants
    exact .pure _
  | _ :: variants, _ :: payloads, seq => by
    unfold fillVariants
    exact (build_onward (copySeq_extends _)).bind fun _ =>
      (build_onward (enumVariant_extends _ _)).bind fun _ => (Leaves.lift _).bind fun seq =>
        fillVariants_onward variants payloads seq

theorem members_onward {intern : Nat → CheckM TypeIdx} (hi : ∀ e, Leaves Onward (intern e))
    {module : Nat} (item : NominalItem) : Leaves Onward (members p intern module item) := by
  cases item with
  | struct decl => exact (resolveTypes_onward hi _).bind fun _ => build_onward (copySeq_extends _)
  | enum decl =>
    exact (Leaves.mapM fun _ _ => resolveTypes_onward hi _).bind fun _ =>
      (fillVariants_onward _ _ _).bind fun _ => .pure _

/-- Only the entry is another one, and of the same declaration. -/
structure Updated (e : Nat) (st st' : CheckState) : Prop where
  modules : st'.modules = st.modules
  bag : st'.bag = st.bag
  storage : st'.table.storage = st.table.storage
  nominals : st'.table.nominals.map (·.declaration) = st.table.nominals.map (·.declaration)
  others : ∀ i ≠ e, st'.table.nominals[i]? = st.table.nominals[i]?

theorem updateNominal_updated {e : Nat} {f : NominalEntry → NominalEntry}
    (h : ∀ entry, (f entry).declaration = entry.declaration) :
    Leaves (Updated e) (updateNominal e f) := by
  refine .modify fun st => ⟨rfl, rfl, rfl, List.ext_getElem? fun i => ?_, fun i hi => ?_⟩
  · rw [List.getElem?_map, List.getElem?_map, List.getElem?_modify]
    cases st.table.nominals[i]? with
    | none => rfl
    | some entry =>
      refine congrArg some ?_
      show (if e = i then f entry else entry).declaration = entry.declaration
      split
      · exact h entry
      · rfl
  · exact List.getElem?_modify_ne _ _ (Ne.symm hi)

/-- The row is behind those of the table. -/
def NominalItem.RowBehind (s : Storage) (k : Nat) : NominalItem → Prop
  | .struct _ => s.structTypes.length ≤ k
  | .enum _ => s.enumTypes.length ≤ k

/-- What a reservation leaves: a node at the end, whose row is new. -/
theorem reserveNominal_some {item : NominalItem} {s s' : Storage} {type : TypeIdx}
    (h : reserveNominal p item s = some (type, s')) : s.Extends s' ∧ ∃ k,
      s'.types[type]? = some ⟨item.tag, k⟩ ∧ item.RowBehind s k := by
  cases item with
  | struct decl =>
    cases h
    refine ⟨{ Storage.Extends.refl s with
      types := List.prefix_append _ _, structs := List.prefix_append _ _ }, _, ?_, Nat.le_refl _⟩
    exact List.getElem?_concat_length
  | enum decl =>
    cases h
    refine ⟨{ Storage.Extends.refl s with
      types := List.prefix_append _ _, enums := List.prefix_append _ _ }, _, ?_, Nat.le_refl _⟩
    exact List.getElem?_concat_length

/-- Filling a row behind the first table leaves that one alone. -/
theorem fillNominal_extends {item : NominalItem} {s₀ s s' : Storage} {type : TypeIdx}
    {range : IdxRange} {k : Nat} (hs : s₀.Extends s) (hnode : s.types[type]? = some ⟨item.tag, k⟩)
    (hk : item.RowBehind s₀ k)
    (h : fillNominal type range item s = some ((), s')) : s₀.Extends s' := by
  cases item with
  | struct decl =>
    obtain ⟨node, hn, h⟩ := Option.bind_eq_some_iff.1 h
    obtain ⟨data, hdata, h⟩ := Option.bind_eq_some_iff.1 h
    obtain ⟨row, _, h⟩ := Option.bind_eq_some_iff.1 h
    cases hnode.symm.trans hn
    cases hdata
    cases h
    exact { hs with structs := prefix_set hs.structs hk _ }
  | enum decl =>
    obtain ⟨node, hn, h⟩ := Option.bind_eq_some_iff.1 h
    obtain ⟨data, hdata, h⟩ := Option.bind_eq_some_iff.1 h
    obtain ⟨row, _, h⟩ := Option.bind_eq_some_iff.1 h
    cases hnode.symm.trans hn
    cases hdata
    cases h
    exact { hs with enums := prefix_set hs.enums hk _ }

/-- The nominal that is interned is new in the table, and so is all that is filled. -/
theorem internFresh_onward {intern : Nat → CheckM TypeIdx} (hi : ∀ e, Leaves Onward (intern e))
    {e : Nat} {entry : NominalEntry} (hfresh : entry.complete = false) {st st' : CheckState}
    {type : TypeIdx} (he : st.table.nominals[e]? = some entry)
    (h : internFresh p intern e entry st = some (type, st')) : Onward st st' := by
  obtain ⟨idx, st₁, hreserve, h⟩ := bind_some.1 h
  obtain ⟨_, st₂, hstart, h⟩ := bind_some.1 h
  obtain ⟨range, st₃, hmembers, h⟩ := bind_some.1 h
  obtain ⟨_, st₄, hfill, h⟩ := bind_some.1 h
  obtain ⟨_, st₅, hcomplete, h⟩ := bind_some.1 h
  cases h
  obtain ⟨r, hreserved, heq⟩ := Option.bind_eq_some_iff.1 hreserve
  cases heq
  obtain ⟨hs₁, k, hnode, hk⟩ := reserveNominal_some hreserved
  have hstarted := updateNominal_updated (by intro _; rfl) _ _ _ hstart
  have hresolved := members_onward hi entry.item _ _ _ hmembers
  have hcompleted := updateNominal_updated (by intro _; rfl) _ _ _ hcomplete
  obtain ⟨r', hfilled, heq⟩ := Option.bind_eq_some_iff.1 hfill
  cases heq
  have hs₂ : st.table.storage.Extends st₂.table.storage := hstarted.storage ▸ hs₁
  have hnode₂ : st₂.table.storage.types[r.1]? = some ⟨entry.item.tag, k⟩ := hstarted.storage ▸ hnode
  have hs₃ := hs₂.trans hresolved.storage
  have hs₄ := fillNominal_extends hs₃ (getElem?_mono hresolved.storage.types hnode₂) hk hfilled
  refine ⟨hcompleted.modules.trans (hresolved.modules.trans hstarted.modules), ?_, ?_,
    hcompleted.nominals.trans (hresolved.nominals.trans hstarted.nominals), ?_⟩
  · rw [hcompleted.bag]
    exact hstarted.bag ▸ hresolved.bag
  · rw [hcompleted.storage]
    exact hs₄
  · intro i other hother hdone
    -- the entry that is updated was not complete
    have hne : i ≠ e := by
      rintro rfl
      cases he.symm.trans hother
      rw [hfresh] at hdone
      cases hdone
    refine (hcompleted.others i hne).trans (hresolved.complete i other ?_ hdone)
    exact (hstarted.others i hne).trans hother

theorem internNominal_onward : ∀ fuel e, Leaves Onward (internNominal p fuel e)
  | fuel, e => by
    unfold internNominal
    intro st type st' h
    obtain ⟨entry, st₁, hentry, h⟩ := bind_some.1 h
    obtain ⟨other, he, heq⟩ := Option.bind_eq_some_iff.1 hentry
    cases heq
    split at h
    · cases h
      exact Std.Refl.refl st
    · next hfresh =>
      rw [Bool.not_eq_true, Bool.or_eq_false_iff] at hfresh
      cases fuel with
      | zero => cases h
      | succ fuel => exact internFresh_onward (internNominal_onward fuel) hfresh.1 he h

theorem intern_onward (e : Nat) : Leaves Onward (intern p e) :=
  Leaves.get.bind fun _ => internNominal_onward _ e

theorem resolve_onward {module : Nat} {self : Option TypeIdx} (type : Ty) :
    Leaves Onward (resolveType p (intern p) module self type) :=
  resolveType_onward intern_onward type

theorem resolveReturn_onward {module : Nat} {self : Option TypeIdx} (type : Option Ty) :
    Leaves Onward (resolveReturn p module self type) := by
  unfold resolveReturn
  split
  · exact .pure _
  · exact resolve_onward _

/-- A value that is read off the type tables. -/
theorem read_onward {α : Type} (f : CheckState → Option α) :
    Leaves Onward (fun st => (f st).map fun a => (a, st)) := by
  intro st a st' h
  obtain ⟨_, _, hr⟩ := Option.map_eq_some_iff.1 h
  cases hr
  exact Std.Refl.refl st

end Alcy.Analyzer.Types
