import Alcy.Analyzer.CheckPackage
import Alcy.Analyzer.Matching

/-! # What binding a pattern finds out

The steps of `bind_pattern` before it goes on with the parts of a pattern. In a run that adds no
diagnostic they have found the type that the pattern asks for, or there is no value of the type.
-/
namespace Alcy.Analyzer.Bodies
open Alcy.Ast Alcy.Diag Alcy.Ir Alcy.Analyzer.Types
open Alcy.Lib.Contracts (Ends Keeps bind_ok bind_of_ok bind_some)

variable {p : Package}

/-! ## Silent runs -/

/-- The declarations stay, and if the run adds no diagnostic, `Q` holds at its end. -/
def Silently {α : Type} (st : BodyState) (m : BodyM α) (Q : α → BodyState → Prop) : Prop :=
  Ends st m fun a u => Onward st.check u.check ∧ (u.check.bag = st.check.bag → Q a u)

namespace Silently

variable {α β : Type} {st : BodyState} {m : BodyM α} {k : α → BodyM β}
  {P : α → BodyState → Prop} {Q : β → BodyState → Prop}

theorem pure {b : β} (h : Q b st) : Silently st (pure b : BodyM β) Q :=
  Ends.pure ⟨Std.Refl.refl _, fun _ => h⟩

theorem of_ends (hf : Keeps forward m) (h : Ends st m P) : Silently st m P :=
  fun a u hrun => ⟨hf.ends st a u trivial hrun, fun _ => h a u hrun⟩

theorem mono {P' : α → BodyState → Prop} (hm : Silently st m P) (h : ∀ a u, P a u → P' a u) :
    Silently st m P' :=
  Ends.mono hm fun a u hu => ⟨hu.1, fun hbag => h a u (hu.2 hbag)⟩

theorem both {P' : α → BodyState → Prop} (hm : Silently st m P) (hm' : Silently st m P') :
    Silently st m fun a u => P a u ∧ P' a u :=
  fun a u hrun => ⟨(hm a u hrun).1, fun hbag => ⟨(hm a u hrun).2 hbag, (hm' a u hrun).2 hbag⟩⟩

theorem onward (hm : Silently st m P) :
    Silently st m fun a u => st.check.table.storage.Extends u.check.table.storage ∧ P a u :=
  Ends.mono hm fun _ _ hu => ⟨hu.1, fun hbag => ⟨hu.1.storage, hu.2 hbag⟩⟩

/-- Of the first part is known what its own silent run says. -/
theorem bind (hm : Silently st m P) (hk : ∀ a u, Onward st.check u.check →
    Silently u (k a) fun b v => P a u → Q b v) : Silently st (m >>= k) Q := by
  refine Ends.bind (Ends.mono hm fun a u hu => Ends.mono (hk a u hu.1) fun b v hv => ?_)
  refine ⟨IsTrans.trans _ _ _ hu.1 hv.1, fun hbag => ?_⟩
  obtain ⟨hfirst, hsecond⟩ := hu.1.silent hv.1 hbag
  exact hv.2 hsecond (hu.2 hfirst)

theorem after (hm : Keeps forward m) (hk : ∀ a u, Onward st.check u.check → Silently u (k a) Q) :
    Silently st (m >>= k) Q :=
  bind (of_ends hm fun _ _ _ => trivial) fun a u hu => (hk a u hu).mono fun _ _ hq _ => hq

end Silently

/-- A diagnostic is not silent. -/
theorem report_silently {code : Nat} {span : Span} {message : String} {st : BodyState}
    {Q : Unit → BodyState → Prop} : Silently st (report code span message) Q := by
  intro a u hrun
  refine ⟨(forwardRule.report _ _ _).ends st a u trivial hrun, fun hbag => ?_⟩
  cases hrun
  simp [emit] at hbag

/-! ## Nominals while bodies are checked -/

theorem Checking.onward {st u : BodyState} (h : Checking p st) (hu : Onward st.check u.check) :
    Checking p u := by
  obtain ⟨typed, htypes, honward⟩ := h
  exact ⟨typed, htypes, IsTrans.trans _ _ _ honward hu⟩

/-- The types have been resolved, and the table is right. -/
theorem checkTypes_checked {typed : BodyState} (htypes : checkTypes p .start = .ok ((), typed)) :
    Checked p typed.check.table := by
  obtain ⟨checked, hchecked, hcomplete, -⟩ := checkItems_checked p []
  obtain ⟨_, st₁, hregister, hprocess⟩ := bind_ok.1 htypes
  obtain ⟨st₂, hregistered, rfl⟩ := check_ok hregister
  obtain ⟨st₃, hprocessed, rfl⟩ := check_ok hprocess
  obtain ⟨_, u₂, hregistered', hrest⟩ := bind_some.1 hchecked
  obtain ⟨_, u₃, hprocessed', hrest⟩ := bind_some.1 hrest
  cases hregistered.symm.trans hregistered'
  cases hprocessed.symm.trans hprocessed'
  cases hrest
  exact hcomplete

/-- Every nominal is complete, and stays as it was when the types had been resolved. -/
theorem Checking.nominals {st : BodyState} (h : Checking p st) :
    (∀ entry ∈ st.check.table.nominals, entry.complete = true) ∧
      ∀ u, Checking p u → u.check.table.nominals = st.check.table.nominals := by
  obtain ⟨typed, htypes, honward⟩ := h
  have hchecked := checkTypes_checked htypes
  have hsame (u : BodyState) (hu : Onward typed.check u.check) :
      u.check.table.nominals = typed.check.table.nominals := by
    have hlength := congrArg List.length hu.nominals
    rw [List.length_map, List.length_map] at hlength
    refine List.ext_getElem? fun i => ?_
    cases hentry : typed.check.table.nominals[i]? with
    | none =>
      rw [List.getElem?_eq_none_iff] at hentry ⊢
      omega
    | some entry =>
      exact hu.complete i entry hentry (hchecked.complete entry (List.mem_of_getElem? hentry))
  refine ⟨fun entry hentry => ?_, fun u hu => ?_⟩
  · rw [hsame st honward] at hentry
    exact hchecked.complete entry hentry
  · obtain ⟨typed', htypes', honward'⟩ := hu
    cases htypes.symm.trans htypes'
    rw [hsame u honward', hsame st honward]

/-- Interning finds the type of the entry. -/
theorem intern_complete {st : BodyState} (h : Checking p st) {e : Nat} {type : TypeIdx}
    {u : BodyState} (hrun : check (intern p e) st = .ok (type, u)) :
    u = st ∧ ∃ entry, st.check.table.nominals[e]? = some entry ∧ type = entry.type := by
  obtain ⟨checked, hintern, rfl⟩ := check_ok hrun
  obtain ⟨st₁, st₂, hget, hintern⟩ := bind_some.1 hintern
  cases hget
  unfold internNominal at hintern
  obtain ⟨entry, st₃, hentry, hintern⟩ := bind_some.1 hintern
  obtain ⟨other, he, heq⟩ := Option.bind_eq_some_iff.1 hentry
  cases heq
  rw [(h.nominals.1 entry (List.mem_of_getElem? he)), Bool.true_or, if_pos rfl] at hintern
  cases hintern
  exact ⟨rfl, entry, he, rfl⟩

/-! ## Types of values -/

variable {sc : Scalars} {s s' : Storage} {type : TypeIdx} {M : Value → Prop}

/-- `!` and the type of an error have no values. -/
def Valueless (s : Storage) (type : TypeIdx) : Prop :=
  tagIn s type = some .never ∨ tagIn s type = some .error

def IsTuple (s : Storage) (type : TypeIdx) (elements : List TypeIdx) : Prop :=
  ∃ k row, s.types[type]? = some ⟨.tuple, k⟩ ∧ s.tupleTypes[k]? = some row ∧
    row.elements.toList = elements

def IsStruct (s : Storage) (type : TypeIdx) (fields : IdxRange) : Prop :=
  ∃ k row, s.types[type]? = some ⟨.struct, k⟩ ∧ s.structTypes[k]? = some row ∧ row.fields = fields

def IsRef (s : Storage) (type pointee : TypeIdx) : Prop :=
  ∃ node row, s.types[type]? = some node ∧ (node.tag = .ref ∨ node.tag = .mutRef) ∧
    s.refTypes[node.data]? = some row ∧ row.pointee = pointee

theorem forall₂_getElem? {α β : Type} {R : α → β → Prop} {as : List α} {bs : List β}
    (h : List.Forall₂ R as bs) {i : Nat} {a : α} (ha : as[i]? = some a) :
    ∃ b, bs[i]? = some b ∧ R a b := by
  induction h generalizing i with
  | nil => cases ha
  | cons hab _ ih =>
    cases i with
    | zero =>
      cases ha
      exact ⟨_, rfl, hab⟩
    | succ i => exact ih ha

/-- Now and when there are more types, every value of the type has the property. -/
def Covered (sc : Scalars) (s : Storage) (type : TypeIdx) (M : Value → Prop) : Prop :=
  ∀ s', s.Extends s' → ∀ v, HasType sc s' type v → M v

theorem Covered.mono (h : Covered sc s type M) (hs : s.Extends s') : Covered sc s' type M :=
  fun s'' hs' v hv => h s'' (hs.trans hs') v hv

theorem tagIn_mono {tag : TypeTag} (hs : s.Extends s') (h : tagIn s type = some tag) :
    tagIn s' type = some tag := by
  obtain ⟨node, hnode, rfl⟩ := Option.map_eq_some_iff.1 h
  rw [tagIn, getElem?_mono hs.types hnode, Option.map_some]

theorem tagIn_of_node {node : TypeNode} (h : s.types[type]? = some node) :
    tagIn s type = some node.tag := by
  rw [tagIn, h, Option.map_some]

theorem payloadTypes_enum {i : Nat} {types : List TypeIdx} (h : payloadTypes s type i = some types) :
    ∃ k, s.types[type]? = some ⟨.enum, k⟩ := by
  obtain ⟨⟨tag, k⟩, hnode, h⟩ := Option.bind_eq_some_iff.1 h
  obtain ⟨_, hk, -⟩ := Option.bind_eq_some_iff.1 h
  unfold TypeNode.asEnum at hk
  split at hk
  · next heq =>
    cases heq
    exact ⟨k, hnode⟩
  · cases hk

theorem hasType_tag {v : Value} (h : HasType sc s type v) : ∃ tag, tagIn s type = some tag ∧
    tag ≠ .never ∧ tag ≠ .error := by
  cases h with
  | scalar hnode htag _ =>
    refine ⟨_, tagIn_of_node hnode, ?_, ?_⟩ <;>
      · intro heq
        rw [heq] at htag
        cases htag
  | tuple hnode _ _ => exact ⟨_, tagIn_of_node hnode, by simp, by simp⟩
  | struct hnode _ _ => exact ⟨_, tagIn_of_node hnode, by simp, by simp⟩
  | enum htypes _ =>
    obtain ⟨k, hnode⟩ := payloadTypes_enum htypes
    exact ⟨_, tagIn_of_node hnode, by simp, by simp⟩
  | ref hnode htag _ _ =>
    refine ⟨_, tagIn_of_node hnode, ?_, ?_⟩ <;>
      · intro heq
        rw [heq] at htag
        simp at htag

theorem Valueless.covered (h : Valueless s type) : Covered sc s type M := by
  intro s' hs v hv
  obtain ⟨tag, htag, hnever, herror⟩ := hasType_tag hv
  rcases h with h | h
  · cases htag.symm.trans (tagIn_mono hs h)
    exact absurd rfl hnever
  · cases htag.symm.trans (tagIn_mono hs h)
    exact absurd rfl herror

theorem IsTuple.mono {elements : List TypeIdx} (h : IsTuple s type elements) (hs : s.Extends s') :
    IsTuple s' type elements := by
  obtain ⟨k, row, hnode, hrow, heq⟩ := h
  exact ⟨k, row, getElem?_mono hs.types hnode, getElem?_mono hs.tuples hrow, heq⟩

theorem IsStruct.mono {fields : IdxRange} (h : IsStruct s type fields) (hs : s.Extends s') :
    IsStruct s' type fields := by
  obtain ⟨k, row, hnode, hrow, heq⟩ := h
  exact ⟨k, row, getElem?_mono hs.types hnode, getElem?_mono hs.structs hrow, heq⟩

theorem IsRef.mono {pointee : TypeIdx} (h : IsRef s type pointee) (hs : s.Extends s') :
    IsRef s' type pointee := by
  obtain ⟨node, row, hnode, htag, hrow, heq⟩ := h
  exact ⟨node, row, getElem?_mono hs.types hnode, htag, getElem?_mono hs.refs hrow, heq⟩

theorem Valueless.mono (h : Valueless s type) (hs : s.Extends s') : Valueless s' type :=
  h.imp (tagIn_mono hs) (tagIn_mono hs)

/-- The values of a tuple type have a part for each element. -/
theorem IsTuple.covered {elements : List TypeIdx} (h : IsTuple s type elements)
    (hM : ∀ s', s.Extends s' → ∀ parts, List.Forall₂ (HasType sc s') elements parts →
      M (.aggregate parts)) : Covered sc s type M := by
  obtain ⟨k, row, hnode, hrow, rfl⟩ := h
  intro s' hs v hv
  have hnode' := getElem?_mono hs.types hnode
  cases hv with
  | scalar h htag _ =>
    cases hnode'.symm.trans h
    cases htag
  | tuple h hrow' hparts =>
    cases hnode'.symm.trans h
    cases (getElem?_mono hs.tuples hrow).symm.trans hrow'
    exact hM s' hs _ hparts
  | struct h _ _ => cases hnode'.symm.trans h
  | enum h _ => cases hnode'.symm.trans (payloadTypes_enum h).choose_spec
  | ref h htag _ _ =>
    cases hnode'.symm.trans h
    simp at htag

/-- The values of a struct have a part for each field. -/
theorem IsStruct.covered {fields : IdxRange} (h : IsStruct s type fields)
    (hM : ∀ s', s.Extends s' → ∀ parts, List.Forall₂ (HasType sc s') fields.toList parts →
      M (.aggregate parts)) : Covered sc s type M := by
  obtain ⟨k, row, hnode, hrow, rfl⟩ := h
  intro s' hs v hv
  have hnode' := getElem?_mono hs.types hnode
  cases hv with
  | scalar h htag _ =>
    cases hnode'.symm.trans h
    cases htag
  | tuple h _ _ => cases hnode'.symm.trans h
  | struct h hrow' hparts =>
    cases hnode'.symm.trans h
    cases (getElem?_mono hs.structs hrow).symm.trans hrow'
    exact hM s' hs _ hparts
  | enum h _ => cases hnode'.symm.trans (payloadTypes_enum h).choose_spec
  | ref h htag _ _ =>
    cases hnode'.symm.trans h
    simp at htag

/-- The values of a reference type point to values. -/
theorem IsRef.covered {pointee : TypeIdx} (h : IsRef s type pointee)
    (hM : Covered sc s pointee fun target => M (.ref target)) : Covered sc s type M := by
  obtain ⟨node, row, hnode, htag, hrow, rfl⟩ := h
  intro s' hs v hv
  have hnode' := getElem?_mono hs.types hnode
  cases hv with
  | scalar h hscalar _ =>
    cases hnode'.symm.trans h
    rcases htag with heq | heq <;>
      · rw [heq] at hscalar
        cases hscalar
  | tuple h _ _ =>
    cases hnode'.symm.trans h
    simp at htag
  | struct h _ _ =>
    cases hnode'.symm.trans h
    simp at htag
  | enum h _ =>
    cases hnode'.symm.trans (payloadTypes_enum h).choose_spec
    simp at htag
  | ref h _ hrow' htarget =>
    cases hnode'.symm.trans h
    cases (getElem?_mono hs.refs hrow).symm.trans hrow'
    exact hM s' hs _ htarget

/-! ## What a pattern expects -/

theorem unify_silently {expected actual : TypeIdx} {span : Span} {what : String} {st : BodyState} :
    Silently st (unify expected actual span what) fun _ u =>
      st.check.table.storage.Extends u.check.table.storage ∧
        Passes st.check.table.storage expected actual := by
  intro type u hrun
  have honward := (forwardRule.unify _ _ _ _).ends st type u trivial hrun
  refine ⟨honward, fun hbag => ⟨honward.storage, ?_⟩⟩
  obtain ⟨_, _, hget, hrun⟩ := bind_ok.1 hrun
  cases hget
  obtain ⟨_, u', hunified, hrun⟩ := bind_ok.1 hrun
  obtain ⟨_, _, hrecord, hrun⟩ := bind_ok.1 hrun
  cases hrecord
  cases hrun
  exact (unified_bag expected actual span what st _ _ hunified).1 hbag

/-- Structs are equal to themselves only. -/
theorem typesEqual_struct {a b : TypeIdx} (h : typesEqual s a b = some true)
    (hb : tagIn s b = some .struct) : a = b := by
  by_contra hne
  have ha := (tagIn_of_typesEqual h).trans hb
  obtain ⟨left, hleft, htag⟩ := Option.map_eq_some_iff.1 ha
  obtain ⟨right, hright, htag'⟩ := Option.map_eq_some_iff.1 hb
  obtain ⟨result, hresult, htrue⟩ := Option.map_eq_some_iff.1 h
  rw [typesEqualInner, if_neg hne, if_neg List.not_mem_nil, hleft, hright] at hresult
  simp only [Option.bind_eq_bind, Option.bind_some, htag, htag', ne_eq, not_true_eq_false,
    if_false, Option.pure_def, Option.some.injEq] at hresult
  rw [← hresult] at htrue
  cases htrue

/-- Where a struct is expected silently, there is no value or it is the struct. -/
theorem Passes.struct {expected actual : TypeIdx} (h : Passes s expected actual)
    (hs : s.Extends s') {fields : IdxRange} (ha : IsStruct s' actual fields) :
    Valueless s' expected ∨ IsStruct s' expected fields := by
  obtain ⟨k, row, hnode, hrow⟩ := ha
  have htag : tagIn s' actual = some .struct := tagIn_of_node hnode
  rcases h with h | h | h | h | h
  · exact .inl (.inr (tagIn_mono hs h))
  · cases htag.symm.trans (tagIn_mono hs h)
  · refine .inr ?_
    by_cases heq : expected = actual
    · exact heq ▸ ⟨k, row, hnode, hrow⟩
    · have htags := tagIn_of_typesEqual h
      cases hactual : tagIn s actual with
      | none =>
        obtain ⟨result, hresult, -⟩ := Option.map_eq_some_iff.1 h
        rw [typesEqualInner, if_neg heq, if_neg List.not_mem_nil] at hresult
        obtain ⟨left, hleft, -⟩ := Option.bind_eq_some_iff.1 hresult
        rw [hactual, tagIn_of_node hleft] at htags
        cases htags
      | some tag =>
        cases (tagIn_mono hs hactual).symm.trans htag
        exact absurd (typesEqual_struct h hactual) heq
  · exact .inl (.inl (tagIn_mono hs h))
  · cases htag.symm.trans (tagIn_mono hs h)

theorem tupleType_tag {elements : IdxRange}
    (h : StorageBuilder.tupleType elements s = some (type, s')) : tagIn s' type = some .tuple := by
  unfold StorageBuilder.tupleType at h
  dsimp only at h
  split at h
  · next hscan =>
    cases h
    obtain ⟨node, hnode, hfits⟩ := StorageBuilder.scan_eq_some hscan
    rw [Bool.and_eq_true, decide_eq_true_eq] at hfits
    rw [tagIn_of_node hnode, hfits.1]
  · cases h
    have hnode : (s.types ++ [⟨.tuple, s.tupleTypes.length⟩])[s.types.length]? =
        some ⟨.tuple, s.tupleTypes.length⟩ := List.getElem?_concat_length
    exact congrArg (Option.map TypeNode.tag) hnode

theorem tagOf_silently (type : TypeIdx) (st : BodyState) :
    Silently st (tagOf type) fun tag u => tagIn u.check.table.storage type = some tag := by
  refine .of_ends (forwardRule.tagOf _) fun tag u hrun => ?_
  obtain ⟨htag, rfl⟩ := tagOf_ok hrun
  exact htag

/-- Nothing but a tuple is silent, except where there is no value. -/
theorem tuplePattern_silently (span : Span) (arity : Nat) (type : TypeIdx) (st : BodyState) :
    Silently st (tuplePattern span arity type) fun types u =>
      (types = none → Valueless u.check.table.storage type) ∧
        ∀ elements, types = some elements →
          elements.length = arity ∧ IsTuple u.check.table.storage type elements := by
  refine Silently.bind (tagOf_silently type st) fun tag u hu => ?_
  split
  · next hne =>
    have hempty : Silently u (check (build (StorageBuilder.tupleType ⟨0, 0⟩))) fun idx v =>
        u.check.table.storage.Extends v.check.table.storage ∧
          tagIn v.check.table.storage idx = some .tuple := by
      refine .of_ends (forwardRule.check (build_onward (tupleType_extends _))) fun idx v hrun => ?_
      obtain ⟨checked, hbuild, rfl⟩ := check_ok hrun
      obtain ⟨r, hr, heq⟩ := Option.bind_eq_some_iff.1 hbuild
      cases heq
      exact ⟨tupleType_extends _ _ _ _ hr, tupleType_tag hr⟩
    refine hempty.bind fun idx v hv => unify_silently.bind fun _ w hw => .pure ?_
    rintro ⟨hs, hpasses⟩ ⟨hs', hidx⟩ htag
    refine ⟨fun _ => ?_, by simp⟩
    have htag' := tagIn_mono hs' htag
    rcases hpasses with h | h | h | h | h
    · exact .inr (tagIn_mono hs h)
    · cases hidx.symm.trans h
    · have heq := tagIn_of_typesEqual h
      rw [hidx, htag', Option.some.injEq] at heq
      exact absurd heq hne
    · exact .inl (tagIn_mono hs h)
    · cases hidx.symm.trans h
  · next htuple =>
    have hread : Silently u (tupleElements type) fun range v =>
        IsTuple v.check.table.storage type range.toList := by
      refine .of_ends (forwardRule.read _) fun range v hrun => ?_
      obtain ⟨hread, rfl⟩ := read_ok hrun
      obtain ⟨⟨tag, k⟩, hnode, hread⟩ := Option.bind_eq_some_iff.1 hread
      obtain ⟨k', hk, hread⟩ := Option.bind_eq_some_iff.1 hread
      obtain ⟨row, hrow, hread⟩ := Option.bind_eq_some_iff.1 hread
      cases hread
      unfold TypeNode.asTuple at hk
      split at hk
      · next heq =>
        cases heq
        cases hk
        exact ⟨_, row, hnode, hrow, rfl⟩
      · cases hk
    refine hread.bind fun range v hv => ?_
    split
    · next hsize =>
      refine .pure fun hrange _ => ⟨by simp, fun elements h => ?_⟩
      cases h
      exact ⟨by rw [IdxRange.toList, List.length_range', hsize], hrange⟩
    · exact (report_silently (Q := fun _ _ => False)).bind fun _ w _ => .pure fun h _ _ => h.elim

/-- The nominal that `resolve_struct_path` returns. -/
def structMeant (p : Package) (nominals : List NominalEntry) (module : Nat) (path : Path) :
    Option Nat :=
  match path.segments.map (·.name) with
  | [] => none
  | [name] => structEntry nominals (findNominalInScope p nominals module name)
  | segments =>
    match walkModulePrefix p.tree module path "value" with
    | .error _ => none
    | .ok target => structEntry nominals (findNominal nominals target (segments.getLastD ""))

/-- An error is reported where nothing is found. -/
theorem unresolvedStruct_eq (span : Span) (name : String) (st : BodyState) :
    ∃ u, unresolvedStruct span name st = .ok (none, u) ∧ u.check.bag ≠ st.check.bag := by
  refine ⟨_, rfl, ?_⟩
  simp [emit]

theorem walkPrefix_eq (module : Nat) (path : Path) (st : BodyState) :
    (∀ target, walkModulePrefix p.tree module path "value" = .ok target →
      walkPrefix p module path st = .ok (some target, st)) ∧
      ∀ message, walkModulePrefix p.tree module path "value" = .error message →
        ∃ u, walkPrefix p module path st = .ok (none, u) ∧ u.check.bag ≠ st.check.bag := by
  unfold walkPrefix
  refine ⟨fun target hwalk => ?_, fun message hwalk => ?_⟩
  · rw [hwalk]
    rfl
  · rw [hwalk]
    refine ⟨_, rfl, ?_⟩
    simp [emit]

theorem resolveStructPath_eq (module : Nat) (path : Path) (st : BodyState) :
    ∃ u, resolveStructPath p module path st =
        .ok (structMeant p st.check.table.nominals module path, u) ∧
      ((structMeant p st.check.table.nominals module path).isSome → u = st) ∧
        (path.segments ≠ [] → (structMeant p st.check.table.nominals module path).isSome ∨
          u.check.bag ≠ st.check.bag) := by
  unfold resolveStructPath structMeant
  rcases path.segments with _ | ⟨head, _ | ⟨second, rest⟩⟩
  · exact ⟨st, rfl, by simp, by simp⟩
  · dsimp only [List.map]
    cases hfound : structEntry st.check.table.nominals
        (findNominalInScope p st.check.table.nominals module head.name) with
    | some e =>
      refine ⟨st, (bind_of_ok (a := st) (u := st) rfl).trans ?_, fun _ => rfl, fun _ => .inl rfl⟩
      rw [hfound]
      rfl
    | none =>
      obtain ⟨u, hrun, hbag⟩ := unresolvedStruct_eq path.span head.name st
      refine ⟨u, (bind_of_ok (a := st) (u := st) rfl).trans ?_, by simp, fun _ => .inr hbag⟩
      rw [hfound]
      exact hrun
  · dsimp only [List.map]
    cases hwalk : walkModulePrefix p.tree module path "value" with
    | error message =>
      obtain ⟨u, hrun, hbag⟩ := (walkPrefix_eq (p := p) module path st).2 message hwalk
      exact ⟨u, bind_of_ok hrun, by simp, fun _ => .inr hbag⟩
    | ok target =>
      have hrun := (walkPrefix_eq (p := p) module path st).1 target hwalk
      dsimp only
      cases hfound : structEntry st.check.table.nominals (findNominal st.check.table.nominals target
          ((head.name :: second.name :: rest.map (·.name)).getLastD "")) with
      | some e =>
        refine ⟨st, (bind_of_ok hrun).trans ((bind_of_ok (a := st) (u := st) rfl).trans ?_),
          fun _ => rfl, fun _ => .inl rfl⟩
        rw [hfound]
        rfl
      | none =>
        obtain ⟨u, hreport, hbag⟩ := unresolvedStruct_eq path.span
          ((head.name :: second.name :: rest.map (·.name)).getLastD "") st
        refine ⟨u, (bind_of_ok hrun).trans ((bind_of_ok (a := st) (u := st) rfl).trans ?_),
          by simp, fun _ => .inr hbag⟩
        rw [hfound]
        exact hreport

theorem structDecl_ok {e : Nat} {decl : StructItem} {st u : BodyState}
    (h : structDecl e st = .ok (decl, u)) : u = st ∧
      ∃ entry, st.check.table.nominals[e]? = some entry ∧ entry.item = .struct decl := by
  obtain ⟨checked, hrun, rfl⟩ := check_ok h
  obtain ⟨entry, hentry, hrun⟩ := Option.bind_eq_some_iff.1 hrun
  split at hrun
  · next item hitem =>
    cases hrun
    exact ⟨rfl, entry, hentry, hitem⟩
  · cases hrun

theorem structDecl_eq {e : Nat} {entry : NominalEntry} {decl : StructItem} {st : BodyState}
    (hentry : st.check.table.nominals[e]? = some entry) (hitem : entry.item = .struct decl) :
    structDecl e st = .ok (decl, st) := by
  obtain ⟨module, item, type, started, complete⟩ := entry
  subst hitem
  unfold structDecl check
  dsimp only
  rw [hentry]
  rfl

/-- What a path means as a struct is a question of the nominals. -/
theorem structAt_of_meant {module : Nat} {path : Path} {e : Nat} {entry : NominalEntry}
    {decl : StructItem} {st : BodyState}
    (hmeant : structMeant p st.check.table.nominals module path = some e)
    (hentry : st.check.table.nominals[e]? = some entry) (hitem : entry.item = .struct decl) :
    structAt p module path st = some decl := by
  obtain ⟨u, hrun, -⟩ := @resolveStructPath_eq p module path st
  rw [hmeant] at hrun
  unfold structAt
  rw [hrun]
  show ((structDecl e st).toOption).map (·.1) = some decl
  rw [structDecl_eq hentry hitem]
  rfl

theorem structFields_silently (type : TypeIdx) (st : BodyState) :
    Silently st (structFields type) fun fields u => IsStruct u.check.table.storage type fields := by
  refine .of_ends (forwardRule.read _) fun fields u hrun => ?_
  obtain ⟨hread, rfl⟩ := read_ok hrun
  obtain ⟨⟨tag, k⟩, hnode, hread⟩ := Option.bind_eq_some_iff.1 hread
  obtain ⟨k', hk, hread⟩ := Option.bind_eq_some_iff.1 hread
  obtain ⟨row, hrow, hread⟩ := Option.bind_eq_some_iff.1 hread
  cases hread
  unfold TypeNode.asStruct at hk
  split at hk
  · next heq =>
    cases heq
    cases hk
    exact ⟨_, row, hnode, hrow, rfl⟩
  · cases hk

theorem structPattern_isSome (module : Nat) (span : Span) (path : Path) (type : TypeIdx)
    (st : BodyState) : Silently st (structPattern p module span path type) fun found _ =>
      path.segments ≠ [] → found.isSome := by
  have hresolve : Silently st (resolveStructPath p module path) fun e _ =>
      path.segments ≠ [] → e.isSome := by
    intro e u hrun
    refine ⟨(forwardRule.resolveStructPath _ _).ends st e u trivial hrun, fun hbag hpath => ?_⟩
    obtain ⟨v, hrun', -, hsome⟩ := @resolveStructPath_eq p module path st
    cases hrun.symm.trans hrun'
    exact (hsome hpath).resolve_right fun h => h hbag
  refine hresolve.bind fun e u _ => ?_
  split
  · exact .pure fun h hpath => h hpath
  · refine .after (forwardRule.intern _) fun self v _ => .after (forwardRule.unify _ _ _ _) fun _ w _ =>
      .after (forwardRule.structDecl _) fun decl w _ => .after (forwardRule.nominal _) fun _ w _ =>
        .after (forwardRule.read _) fun fields w _ => .pure fun _ _ => rfl

/-- Where a struct is found, it is the type of the value, or there is no value. -/
theorem structPattern_silently {st st₀ : BodyState} (h : Checking p st) (h₀ : Checking p st₀)
    (module : Nat) (span : Span) (path : Path) (type : TypeIdx) :
    Silently st (structPattern p module span path type) fun found u => ∀ decl fields,
      found = some (decl, fields) → structAt p module path st₀ = some decl ∧
        (Valueless u.check.table.storage type ∨ IsStruct u.check.table.storage type fields) := by
  have hresolve : Silently st (resolveStructPath p module path) fun e _ =>
      e = structMeant p st₀.check.table.nominals module path := by
    refine .of_ends (forwardRule.resolveStructPath _ _) fun e u hrun => ?_
    obtain ⟨v, hrun', -⟩ := @resolveStructPath_eq p module path st
    cases hrun.symm.trans hrun'
    rw [h.nominals.2 st₀ h₀]
  refine hresolve.bind fun e u hu => ?_
  have hcu := h.onward hu
  split
  · exact .pure (by simp)
  next e =>
  have hintern : Silently u (check (intern p e)) fun self _ =>
      ∃ entry, st₀.check.table.nominals[e]? = some entry ∧ self = entry.type := by
    refine .of_ends (forwardRule.intern _) fun self v hrun => ?_
    obtain ⟨rfl, entry, hentry, hself⟩ := intern_complete hcu hrun
    exact ⟨entry, by rw [hcu.nominals.2 st₀ h₀, hentry], hself⟩
  refine hintern.bind fun self v hv => unify_silently.bind fun _ w hw => ?_
  have hcw := (hcu.onward hv).onward hw
  have hdecl : Silently w (structDecl e) fun decl x => w.check.table.storage.Extends x.check.table.storage ∧
      ∃ entry, st₀.check.table.nominals[e]? = some entry ∧ entry.item = .struct decl := by
    refine .of_ends (forwardRule.structDecl _) fun decl x hrun => ?_
    obtain ⟨rfl, entry, hentry, hitem⟩ := structDecl_ok hrun
    exact ⟨.refl _, entry, by rw [hcw.nominals.2 st₀ h₀, hentry], hitem⟩
  refine hdecl.bind fun decl x hx => ?_
  have hnominal : Silently x (check (nominal e)) fun entry y =>
      x.check.table.storage.Extends y.check.table.storage ∧ st₀.check.table.nominals[e]? = some entry := by
    refine .of_ends (forwardRule.nominal _) fun entry y hrun => ?_
    obtain ⟨checked, hread, rfl⟩ := check_ok hrun
    obtain ⟨other, hentry, heq⟩ := Option.bind_eq_some_iff.1 hread
    cases heq
    exact ⟨.refl _, by rw [(hcw.onward hx).nominals.2 st₀ h₀, hentry]⟩
  refine hnominal.bind fun entry y _ => (structFields_silently _ y).bind fun fields z hz => .pure ?_
  rintro hstruct ⟨hy, hentry⟩ ⟨hx', entry', hentry', hitem⟩ ⟨hw', hpasses⟩
    ⟨entry'', hentry'', rfl⟩ hmeant decl' fields' heq
  cases heq
  cases hentry.symm.trans hentry'
  cases hentry.symm.trans hentry''
  refine ⟨structAt_of_meant hmeant.symm hentry hitem, ?_⟩
  exact hpasses.struct (hw'.trans (hx'.trans (hy.trans hz.storage))) hstruct

theorem refPattern_silently (span : Span) (isMut : Bool) (type : TypeIdx) (st : BodyState) :
    Silently st (refPattern span isMut type) fun found u => ∃ pointee, found = some pointee ∧
      IsRef u.check.table.storage type pointee := by
  refine Silently.bind (tagOf_silently type st) fun tag u hu => ?_
  split
  · exact (report_silently (Q := fun _ _ => False)).bind fun _ w _ => .pure fun h _ => h.elim
  · have hread : Silently u (pointeeOf type) fun pointee v =>
        IsRef v.check.table.storage type pointee := by
      refine .of_ends (forwardRule.pointeeOf _) fun pointee v hrun => ?_
      obtain ⟨hread, rfl⟩ := read_ok hrun
      obtain ⟨node, hnode, hread⟩ := Option.bind_eq_some_iff.1 hread
      obtain ⟨k, hk, hread⟩ := Option.bind_eq_some_iff.1 hread
      obtain ⟨row, hrow, hread⟩ := Option.bind_eq_some_iff.1 hread
      cases hread
      unfold TypeNode.asRef at hk
      split at hk
      · next htag =>
        cases hk
        exact ⟨node, row, hnode, htag, hrow, rfl⟩
      · cases hk
    exact hread.bind fun pointee v _ => .pure fun hpointee _ => ⟨pointee, rfl, hpointee⟩

theorem slot_silently (range : IdxRange) (i : Nat) (st : BodyState) :
    Silently st (slot range i) fun type _ => range.toList[i]? = some type :=
  .of_ends (forwardRule.slot _ _) fun _ _ hrun => (read_ok hrun).1

/-- Comparing and erasing come after the alternative. -/
theorem alternative_silently {α : Type} {m : BodyM α} {st : BodyState} {P : α → BodyState → Prop}
    (hP : ∀ a u v, Onward u.check v.check → P a u → P a v)
    (hm : ∀ u, Onward st.check u.check → Silently u m P) (base : Nat) (span : Span) :
    Silently st (alternative base span m) P := by
  refine .after forwardRule.innermost fun scope u hu => (hm u hu).bind fun a v hv => ?_
  have hcompare : Silently v (compareNames base scope.length span) fun _ w => P a v → P a w := by
    have hkeeps := forwardClosed.compareNames forwardRule.innermost forwardRule.report base
      scope.length span
    exact .of_ends hkeeps fun _ w hrun => hP a v w (hkeeps.ends v () w trivial hrun)
  refine hcompare.bind fun _ w _ => ?_
  have herase : Silently w (eraseFrom scope.length) fun _ x => P a w → P a x := by
    have hkeeps := forwardClosed.eraseFrom forwardRule.innermost forward_context scope.length
    exact .of_ends hkeeps fun _ x hrun => hP a w x (hkeeps.ends w () x trivial hrun)
  exact herase.bind fun _ x _ => .pure fun hx hw hv => hx (hw hv)

end Alcy.Analyzer.Bodies
