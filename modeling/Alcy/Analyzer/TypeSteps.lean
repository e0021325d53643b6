import Alcy.Analyzer.TypeTable

/-! # Steps of the checker on the type table

One theorem for each operation: from a sound table it runs to its end, the table it leaves is sound
and has only grown, and its result is a type of that table. The resolution of a type is an induction
on the type; `intern_nominal`, which calls back into it, is an induction on the number of nominals
that have not been started.
-/
namespace Alcy.Analyzer.Types
open Alcy.Ast Alcy.Diag Alcy.Ir
open Alcy.Lib.Total (Frame Runs bind_of_eq)

/-- What every operation keeps: the invariant, and no recursive type is reported yet. -/
def frame (p : Package) : Frame CheckState where
  inv st := Sound p st.table ∧ ∀ d ∈ st.bag, d.code ≠ kAnalyzerRecursiveType
  rel st st' := Grows st.table st'.table
  refl st := .refl st.table
  trans h h' := h.trans h'

variable {p : Package} {st : CheckState}

/-! ## Builder steps -/

/-- A node of a nominal, an enum or a tuple comes with its row. -/
theorem Sound.usable_node {table : Table} (h : Sound p table) {idx k : Nat} {tag : TypeTag}
    (hidx : table.storage.types[idx]? = some ⟨tag, k⟩)
    (htag : tag = .struct ∨ tag = .enum ∨ tag = .tuple) : table.storage.usable idx = true := by
  refine Storage.usable_iff.2 ⟨_, hidx, ?_⟩
  have hprim : ∀ node ∈ internPrimitives, node.tag ≠ .struct ∧ node.tag ≠ .enum ∧
      node.tag ≠ .tuple := by decide
  refine (h.closed.nodes _ (List.mem_of_getElem? hidx)).resolve_left fun hmem => ?_
  obtain ⟨h₁, h₂, h₃⟩ := hprim _ hmem
  rcases htag with rfl | rfl | rfl
  · exact h₁ rfl
  · exact h₂ rfl
  · exact h₃ rfl

/-- The primitives that types are resolved to. -/
theorem Sound.usable_primitive {table : Table} (h : Sound p table) (tag : TypeTag)
    (ht : ⟨tag, 0⟩ ∈ internPrimitives) (href : tag ≠ .ref ∧ tag ≠ .mutRef) :
    table.storage.usable (primitiveIdx tag) = true := by
  have hidx := internPrimitives_primitiveIdx _ ht
  refine Storage.usable_iff.2 ⟨_, getElem?_mono h.closed.prims hidx, ?_⟩
  have htags : ∀ node ∈ internPrimitives, node.tag ≠ .struct ∧ node.tag ≠ .enum ∧
      node.tag ≠ .tuple ∧ node.tag ≠ .array := by decide
  obtain ⟨h₁, h₂, h₃, h₄⟩ := htags _ ht
  unfold Storage.readable
  cases tag <;> first | rfl | (exact absurd rfl href.1) | (exact absurd rfl href.2) |
    (exact absurd rfl h₁) | (exact absurd rfl h₂) | (exact absurd rfl h₃) | (exact absurd rfl h₄)

theorem report_steps {code : Nat} {span : Span} {message : String}
    (hs : (frame p).inv st) (hc : code ≠ kAnalyzerRecursiveType) :
    Runs (frame p) (report code span message) st fun _ st' => st'.table = st.table := by
  refine .of_eq rfl ⟨hs.1, ?_⟩ (.refl _) rfl
  intro d hd
  rcases List.mem_append.1 hd with hd | hd
  · exact hs.2 d hd
  · obtain rfl := List.mem_singleton.1 hd
    exact hc

theorem build_eq {α : Type} {m : Build α} {a : α} {s : Storage}
    (h : m st.table.storage = some (a, s)) :
    build m st = some (a, { st with table := { st.table with storage := s } }) := by
  show (m st.table.storage).bind _ = _
  rw [h]
  rfl

/-- A step of the builder that keeps the table sound. -/
theorem build_steps {α : Type} {m : Build α} {a : α} {s : Storage} {Q : α → CheckState → Prop}
    (hs : (frame p).inv st) (hm : m st.table.storage = some (a, s))
    (hg : Sound p { st.table with storage := s } ∧ Grows st.table { st.table with storage := s })
    (hq : Q a { st with table := { st.table with storage := s } }) :
    Runs (frame p) (build m) st Q :=
  .of_eq (build_eq hm) ⟨hg.1, hs.2⟩ hg.2 hq

/-- **One node more**: its row is there, and what it holds stands before it. -/
theorem Sound.pushNode {table : Table} (h : Sound p table) {s : Storage} {node : TypeNode}
    (he : table.storage.Extends s) (ht : s.types = table.storage.types ++ [node])
    (hr : s.readable node = true) (hstructs : s.structTypes = table.storage.structTypes)
    (hvariants : s.enumVariantTypes = table.storage.enumVariantTypes)
    (henums : ∀ row ∈ s.enumTypes, row ∈ table.storage.enumTypes ∨
      row.variants.Within table.storage.enumVariantTypes.length)
    (htuples : ∀ row ∈ s.tupleTypes, row ∈ table.storage.tupleTypes ∨
      row.elements.Within table.storage.types.length)
    (harrays : s.arrayTypes = table.storage.arrayTypes)
    (hf : Falls s table.storage.types.length node) :
    Sound p { table with storage := s } ∧ Grows table { table with storage := s } := by
  have hlen : table.storage.types.length ≤ s.types.length := he.types.length_le
  refine h.grow he (h.closed.grow he ?_ ?_ ?_ ?_ ?_ harrays) hstructs ?_
  · intro other hm
    rw [ht] at hm
    rcases List.mem_append.1 hm with hm | hm
    · exact .inl hm
    · exact .inr (List.mem_singleton.1 hm ▸ hr)
  · exact fun row hm => .inl (hstructs ▸ hm)
  · exact fun row hm => .inl (hvariants ▸ hm)
  · exact fun row hm => (henums row hm).imp id fun hw => hvariants ▸ hw
  · exact fun row hm => (htuples row hm).imp id fun hw => hw.mono hlen
  · intro idx other hge hidx
    rw [ht] at hidx
    have hlt := (List.getElem?_eq_some_iff.1 hidx).1
    obtain rfl : idx = table.storage.types.length := by
      simp only [List.length_append, List.length_singleton] at hlt
      omega
    rw [List.getElem?_concat_length, Option.some.injEq] at hidx
    exact .inr (hidx ▸ hf)

/-- The new node is a type with its row. -/
theorem usable_pushed {s : Storage} {types : List TypeNode} {node : TypeNode}
    (ht : s.types = types ++ [node]) (hr : s.readable node = true) :
    s.usable types.length = true :=
  Storage.usable_iff.2 ⟨node, by rw [ht, List.getElem?_concat_length], hr⟩

theorem markerType_steps {tag : TypeTag} (ht : tag = .never ∨ tag = .error)
    (hs : (frame p).inv st) : Runs (frame p) (build (StorageBuilder.markerType tag)) st
      fun idx st' => st'.table.storage.usable idx = true := by
  have hread (s : Storage) (k : Nat) : s.readable ⟨tag, k⟩ = true := by
    rcases ht with rfl | rfl <;> rfl
  cases hscan : StorageBuilder.scan st.table.storage fun node => node.tag = tag with
  | some idx =>
    refine build_steps (a := idx) (s := st.table.storage) hs ?_ ⟨hs.1, .refl _⟩ ?_
    · simp [StorageBuilder.markerType, hscan]
    · obtain ⟨⟨other, k⟩, hnode, hfits⟩ := StorageBuilder.scan_eq_some hscan
      obtain rfl : other = tag := by simpa using hfits
      exact Storage.usable_iff.2 ⟨_, hnode, hread _ k⟩
  | none =>
    refine build_steps (s := StorageBuilder.withTypes st.table.storage [⟨tag, 0⟩])
      (a := st.table.storage.types.length) hs ?_ ?_ ?_
    · simp [StorageBuilder.markerType, hscan, StorageBuilder.pushType, StorageBuilder.withTypes]
    · refine hs.1.pushNode ?_ rfl (hread _ 0) rfl rfl (fun row hm => .inl hm)
        (fun row hm => .inl hm) rfl ?_
      · exact { Storage.Extends.refl _ with types := List.prefix_append _ _ }
      · intro parts hparts
        obtain rfl : [] = parts := by
          rcases ht with rfl | rfl <;> exact Option.some.inj hparts
        simp
    · exact usable_pushed rfl (hread _ 0)

theorem errorType_steps (hs : (frame p).inv st) : Runs (frame p) errorType st
    fun idx st' => st'.table.storage.usable idx = true :=
  markerType_steps (.inr rfl) hs

theorem referenceType_steps {pointee : TypeIdx} {isMut : Bool} (hs : (frame p).inv st) :
    Runs (frame p) (build (StorageBuilder.referenceType pointee isMut)) st
      fun idx st' => st'.table.storage.usable idx = true := by
  obtain ⟨tag, htag, href⟩ : ∃ tag : TypeTag, (if isMut then TypeTag.mutRef else .ref) = tag ∧
      (tag = .ref ∨ tag = .mutRef) := by
    cases isMut
    · exact ⟨_, rfl, .inl rfl⟩
    · exact ⟨_, rfl, .inr rfl⟩
  have hread {s : Storage} {k : Nat} (hk : k < s.refTypes.length) : s.readable ⟨tag, k⟩ = true := by
    rcases href with rfl | rfl <;> exact decide_eq_true hk
  cases hscan : StorageBuilder.scan st.table.storage fun node => node.tag = tag &&
      st.table.storage.refTypes[node.data]?.any fun row => row.pointee = pointee with
  | some idx =>
    refine build_steps (a := idx) (s := st.table.storage) hs ?_ ⟨hs.1, .refl _⟩ ?_
    · simp only [StorageBuilder.referenceType, htag, hscan]
    · obtain ⟨⟨other, k⟩, hnode, hfits⟩ := StorageBuilder.scan_eq_some hscan
      simp only [Bool.and_eq_true, decide_eq_true_eq, Option.any_eq_true] at hfits
      obtain ⟨rfl, row, hrow, -⟩ := hfits
      exact Storage.usable_iff.2 ⟨_, hnode, hread (List.getElem?_eq_some_iff.1 hrow).1⟩
  | none =>
    refine build_steps (a := st.table.storage.types.length)
      (s := { st.table.storage with
        types := st.table.storage.types ++ [⟨tag, st.table.storage.refTypes.length⟩],
        refTypes := st.table.storage.refTypes ++ [⟨pointee⟩] }) hs ?_ ?_ ?_
    · simp only [StorageBuilder.referenceType, htag, hscan, StorageBuilder.pushType]
    · refine hs.1.pushNode ?_ rfl (hread (by simp)) rfl rfl (fun row hm => .inl hm)
        (fun row hm => .inl hm) rfl ?_
      · exact { Storage.Extends.refl _ with
          types := List.prefix_append _ _
          refs := List.prefix_append _ _ }
      · intro parts hparts
        obtain rfl : [] = parts := by
          rcases href with rfl | rfl <;> exact Option.some.inj hparts
        simp
    · exact usable_pushed rfl (hread (by simp))

/-- The node of a range of elements. -/
def TupleNode (s : Storage) (idx : TypeIdx) (elements : IdxRange) : Prop :=
  ∃ k row, s.types[idx]? = some ⟨.tuple, k⟩ ∧ s.tupleTypes[k]? = some row ∧
    row.elements.size = elements.size ∧ row.elements.toList = elements.toList

theorem tupleType_steps {elements : IdxRange} (hs : (frame p).inv st)
    (hw : elements.Within st.table.storage.types.length) :
    Runs (frame p) (build (StorageBuilder.tupleType elements)) st
      fun idx st' => TupleNode st'.table.storage idx elements := by
  have hread {s : Storage} {k : Nat} (hk : k < s.tupleTypes.length) :
      s.readable ⟨.tuple, k⟩ = true := decide_eq_true hk
  cases hscan : StorageBuilder.scan st.table.storage fun node => node.tag = .tuple &&
      st.table.storage.tupleTypes[node.data]?.any fun row =>
        row.elements.toList = elements.toList with
  | some idx =>
    refine build_steps (a := idx) (s := st.table.storage) hs ?_ ⟨hs.1, .refl _⟩ ?_
    · simp only [StorageBuilder.tupleType, hscan]
    · obtain ⟨⟨other, k⟩, hnode, hfits⟩ := StorageBuilder.scan_eq_some hscan
      simp only [Bool.and_eq_true, decide_eq_true_eq, Option.any_eq_true] at hfits
      obtain ⟨rfl, row, hrow, heq⟩ := hfits
      have hsize := congrArg List.length heq
      simp only [IdxRange.toList, List.length_range'] at hsize
      exact ⟨k, row, hnode, hrow, hsize, heq⟩
  | none =>
    refine build_steps (a := st.table.storage.types.length)
      (s := { st.table.storage with
        types := st.table.storage.types ++ [⟨.tuple, st.table.storage.tupleTypes.length⟩],
        tupleTypes := st.table.storage.tupleTypes ++ [⟨elements⟩] }) hs ?_ ?_ ?_
    · simp only [StorageBuilder.tupleType, hscan, StorageBuilder.pushType]
    · refine hs.1.pushNode ?_ rfl (hread (by simp)) rfl rfl (fun row hm => .inl hm)
        (fun row hm => ?_) rfl ?_
      · exact { Storage.Extends.refl _ with
          types := List.prefix_append _ _
          tuples := List.prefix_append _ _ }
      · rcases List.mem_append.1 hm with hm | hm
        · exact .inl hm
        · obtain rfl := List.mem_singleton.1 hm
          exact .inr hw
      · intro parts hparts part hpart
        simp only [Storage.nodeParts, List.getElem?_concat_length, Option.map_some,
          Option.some.injEq] at hparts
        exact hw.lt (hparts ▸ hpart)
    · exact ⟨_, ⟨elements⟩, List.getElem?_concat_length, List.getElem?_concat_length, rfl, rfl⟩

/-- The slots of the range hold the nodes of the types. -/
structure Copied (s s' : Storage) (types : List TypeIdx) (range : IdxRange) : Prop where
  within : range.Within s'.types.length
  size : range.size = types.length
  slots : ∃ nodes : List TypeNode, types.map (s.types[·]?) = nodes.map some ∧
    range.toList.map (s'.types[·]?) = nodes.map some
  variants : s'.enumVariantTypes = s.enumVariantTypes

/-- **A sequence of copies.** -/
theorem copySeq_steps {types : List TypeIdx} (hs : (frame p).inv st)
    (hu : ∀ i ∈ types, st.table.storage.usable i = true) :
    Runs (frame p) (build (StorageBuilder.copySeq types)) st fun range st' =>
      Copied st.table.storage st'.table.storage types range := by
  obtain ⟨range, nodes, hrun, hnodes, hwithin, hlist⟩ :=
    StorageBuilder.copySeq_eq fun i hi => Storage.usable_lt (hu i hi)
  have hcopy {node : TypeNode} (hm : node ∈ nodes) :
      ∃ i ∈ types, st.table.storage.types[i]? = some node := by
    have hm : some node ∈ types.map (st.table.storage.types[·]?) :=
      hnodes ▸ List.mem_map_of_mem hm
    obtain ⟨i, hi, heq⟩ := List.mem_map.1 hm
    exact ⟨i, hi, heq⟩
  have he : st.table.storage.Extends (StorageBuilder.withTypes st.table.storage nodes) :=
    { Storage.Extends.refl _ with types := List.prefix_append _ _ }
  have hlen : nodes.length = types.length := by
    simpa using (congrArg List.length hnodes).symm
  refine build_steps (a := range) hs hrun (hs.1.grow he (hs.1.closed.grow he ?_ (fun _ h => .inl h)
    (fun _ h => .inl h) (fun _ h => .inl h) (fun _ h => .inl h) rfl) rfl ?_)
    ⟨?_, ?_, ⟨nodes, hnodes, ?_⟩, rfl⟩
  · intro node hm
    rcases List.mem_append.1 hm with hm | hm
    · exact .inl hm
    · obtain ⟨i, -, hi⟩ := hcopy hm
      exact .inl (List.mem_of_getElem? hi)
  · intro idx node hge hidx
    have hmem : node ∈ nodes := by
      rw [StorageBuilder.withTypes, List.getElem?_append_right hge] at hidx
      exact List.mem_of_getElem? hidx
    obtain ⟨i, -, hi⟩ := hcopy hmem
    refine (hs.1.falls i node hi).imp id fun hfall parts hparts part hpart => ?_
    obtain ⟨parts', hparts', -⟩ := hs.1.closed.nodeParts (List.mem_of_getElem? hi)
    rw [he.nodeParts hparts', Option.some.injEq] at hparts
    have hlt := hfall parts' hparts' part (hparts ▸ hpart)
    have hi := (List.getElem?_eq_some_iff.1 hi).1
    exact Nat.lt_of_lt_of_le (Nat.lt_trans hlt hi) hge
  · simpa [StorageBuilder.withTypes] using hwithin
  · have hsize := congrArg List.length hlist
    simpa [IdxRange.toList, hlen] using hsize
  · rw [hlist]
    refine List.ext_getElem? fun i => ?_
    simp only [List.getElem?_map]
    rcases Nat.lt_or_ge i nodes.length with hi | hi
    · simp [StorageBuilder.withTypes, hi]
    · simp [hi]

/-- A variant goes to the end of its table. -/
theorem enumVariant_steps {name : StringPoolId} {fields : IdxRange} (hs : (frame p).inv st)
    (hw : fields.Within st.table.storage.types.length) :
    Runs (frame p) (build (StorageBuilder.enumVariant name fields)) st fun idx st' =>
      idx = st.table.storage.enumVariantTypes.length ∧
      st'.table.storage.enumVariantTypes.length = idx + 1 ∧
      st'.table.storage.enumVariantTypes[idx]? = some ⟨name, fields⟩ := by
  refine build_steps (a := st.table.storage.enumVariantTypes.length)
    (s := { st.table.storage with
      enumVariantTypes := st.table.storage.enumVariantTypes ++ [⟨name, fields⟩] }) hs rfl ?_
    ⟨rfl, by simp, List.getElem?_concat_length⟩
  have he : st.table.storage.Extends { st.table.storage with
      enumVariantTypes := st.table.storage.enumVariantTypes ++ [⟨name, fields⟩] } :=
    { Storage.Extends.refl _ with variants := List.prefix_append _ _ }
  refine hs.1.grow he (hs.1.closed.grow he (fun _ h => .inl h) (fun _ h => .inl h) ?_
    (fun _ h => .inl h) (fun _ h => .inl h) rfl) rfl ?_
  · intro row hm
    rcases List.mem_append.1 hm with hm | hm
    · exact .inl hm
    · obtain rfl := List.mem_singleton.1 hm
      exact .inr hw
  · intro idx node hge hidx
    exact absurd (List.getElem?_eq_some_iff.1 hidx).1 (Nat.not_lt.2 hge)

/-- The node of an enum that is complete from the start. -/
theorem enumType_steps {name : StringPoolId} {variants : IdxRange} (hs : (frame p).inv st)
    (hw : variants.Within st.table.storage.enumVariantTypes.length) :
    Runs (frame p) (build (StorageBuilder.enumType name variants)) st fun idx st' =>
      ∃ k, st'.table.storage.types[idx]? = some ⟨.enum, k⟩ := by
  refine build_steps (a := st.table.storage.types.length)
    (s := { st.table.storage with
      types := st.table.storage.types ++ [⟨.enum, st.table.storage.enumTypes.length⟩],
      enumTypes := st.table.storage.enumTypes ++ [⟨name, variants⟩] }) hs rfl ?_
    ⟨_, List.getElem?_concat_length⟩
  refine hs.1.pushNode ?_ rfl (by simp [Storage.readable]) rfl rfl (fun row hm => ?_)
    (fun row hm => .inl hm) rfl ?_
  · exact { Storage.Extends.refl _ with
      types := List.prefix_append _ _
      enums := List.prefix_append _ _ }
  · rcases List.mem_append.1 hm with hm | hm
    · exact .inl hm
    · obtain rfl := List.mem_singleton.1 hm
      exact .inr hw
  · intro parts hparts part hpart
    obtain ⟨parts', hparts', hlt⟩ := Storage.payloadParts_total hs.1.closed.variants
      fun i hi => hw.lt hi
    simp only [Storage.nodeParts, List.getElem?_concat_length, Option.bind_some] at hparts
    have heq : some parts' = some parts :=
      (hparts'.symm.trans (Storage.payloadParts_congr (by rfl) _).symm).trans hparts
    exact hlt part (Option.some.inj heq ▸ hpart)

/-- The history and the blessed types are only appended to. -/
theorem modifyTable_steps {f : Table → Table} (hs : (frame p).inv st)
    (hsound : Sound p (f st.table)) (hg : Grows st.table (f st.table)) :
    Runs (frame p) (modifyTable f) st fun _ st' => st'.table = f st.table :=
  .of_eq rfl ⟨hsound, hs.2⟩ hg rfl

theorem internBlessed_steps {isResult : Bool} {args : List TypeIdx} (hs : (frame p).inv st)
    (hfit : args.length = blessedArity isResult) (hu : ∀ i ∈ args, st.table.storage.usable i = true) :
    Runs (frame p) (internBlessed p isResult args) st
      fun idx st' => st'.table.storage.usable idx = true := by
  refine .get ?_
  cases hfind : st.table.blessed.find? fun entry => entry.isResult = isResult && entry.args = args with
  | some entry =>
    obtain ⟨k, hk⟩ := hs.1.blessed entry (List.mem_of_find?_eq_some hfind)
    exact .pure hs (hs.1.usable_node hk (.inr (.inl rfl)))
  | none =>
    obtain ⟨first, hfirst, payload, hpayload, hwithin⟩ : ∃ first, args[0]? = some first ∧
        ∃ payload, secondPayload isResult args = some payload ∧
          payload.Within st.table.storage.types.length := by
      cases isResult with
      | true =>
        obtain ⟨a, b, rfl⟩ := List.length_eq_two.1 hfit
        exact ⟨a, rfl, ⟨b, 1⟩, rfl, Storage.usable_lt (hu b (by simp))⟩
      | false =>
        obtain ⟨a, rfl⟩ := List.length_eq_one_iff.1 hfit
        exact ⟨a, rfl, ⟨0, 0⟩, rfl, Nat.zero_le _⟩
    have hone : (⟨first, 1⟩ : IdxRange).Within st.table.storage.types.length :=
      Storage.usable_lt (hu _ (List.mem_of_getElem? hfirst))
    refine .lift hfirst ((enumVariant_steps hs hone).bind fun ok st₁ hs₁ hg₁ hok => ?_)
    have hempty : SeqBuilder.empty.Next ok := .inl rfl
    obtain ⟨seq₁, hpush₁, hnext₁, -⟩ := hempty.push
    refine .lift hpush₁ (.lift hpayload ?_)
    refine (enumVariant_steps hs₁ (hwithin.mono hg₁.storage.types.length_le)).bind
      fun err st₂ hs₂ hg₂ herr => ?_
    obtain ⟨seq₂, hpush₂, hnext₂, -⟩ := hnext₁.push
    have herr₁ : err = ok + 1 := herr.1.trans hok.2.1
    refine .lift (herr₁ ▸ hpush₂) ?_
    refine (enumType_steps hs₂ ?_).bind fun type st₃ hs₃ hg₃ htype => ?_
    · have hlen : st₂.table.storage.enumVariantTypes.length = ok + 1 + 1 := by rw [herr.2.1, herr₁]
      exact hlen ▸ hnext₂.within
    have hblessed : Grows st₃.table { st₃.table with
        blessed := st₃.table.blessed ++ [⟨isResult, args, type⟩] } :=
      .of_nominals (.refl _) rfl (List.prefix_append _ _) List.prefix_rfl
    refine (modifyTable_steps hs₃ (hs₃.1.extend hblessed.toExtends hs₃.1.closed
      (fun _ _ h => .inl h) (fun k hge hlt => absurd hlt (Nat.not_lt.2 hge))
      (fun idx node hge hidx => absurd (List.getElem?_eq_some_iff.1 hidx).1 (Nat.not_lt.2 hge))
      (fun entry hm => ?_) (fun _ h => .inl h)) hblessed).bind fun _ st₄ hs₄ _ htable => ?_
    · rcases List.mem_append.1 hm with hm | hm
      · exact .inl hm
      · obtain rfl := List.mem_singleton.1 hm
        exact .inr htype
    · obtain ⟨k, hk⟩ := htype
      have hnode : st₄.table.storage.types[type]? = some ⟨.enum, k⟩ := by
        rw [htable]
        exact hk
      exact .pure hs₄ (hs₄.1.usable_node hnode (.inr (.inl rfl)))

/-! ## Depth -/

/-- The nominals that have no node yet. -/
def unstarted (nominals : List NominalEntry) : Nat := nominals.countP fun entry => !entry.started

theorem countP_le_of_getElem? {α : Type} {P : α → Bool} {l m : List α}
    (hlen : m.length = l.length)
    (h : ∀ (i : Nat) (a b : α), l[i]? = some a → m[i]? = some b → P b = true → P a = true) :
    m.countP P ≤ l.countP P := by
  induction l generalizing m with
  | nil =>
    obtain rfl := List.length_eq_zero_iff.1 hlen
    exact Nat.le_refl _
  | cons a l ih =>
    obtain ⟨b, m, rfl⟩ := List.exists_cons_of_length_eq_add_one hlen
    have hrest := ih (m := m) (by simpa using hlen) fun i a b ha hb => h (i + 1) a b ha hb
    have hhead := h 0 a b rfl rfl
    rw [List.countP_cons, List.countP_cons]
    cases hb : P b
    · simp_all
      omega
    · simp_all

/-- Growth starts entries, and stops none. -/
theorem Extends.unstarted_le {table table' : Table} (h : Extends table table') :
    unstarted table'.nominals ≤ unstarted table.nominals := by
  refine countP_le_of_getElem? h.length fun e old new ho hn hnew => ?_
  cases hold : old.started with
  | false => rfl
  | true =>
    rw [(h.kept e old new ho hn).settled hold, hold] at hnew
    exact hnew

/-- Starting an entry leaves one fewer to be started. -/
theorem unstarted_modify {nominals : List NominalEntry} {e : Nat} {entry : NominalEntry}
    {f : NominalEntry → NominalEntry} (he : nominals[e]? = some entry)
    (hs : entry.started = false) (hf : (f entry).started = true) :
    unstarted (nominals.modify e f) + 1 = unstarted nominals := by
  induction nominals generalizing e with
  | nil => cases he
  | cons first rest ih =>
    cases e with
    | zero =>
      obtain rfl : first = entry := Option.some.inj he
      simp [unstarted, hs, hf]
    | succ e =>
      have hrest := ih (e := e) he
      simp only [unstarted, List.modify_succ_cons, List.countP_cons] at hrest ⊢
      omega

/-! ## Resolving a type -/

/-- What was called between two tables. -/
def Since (table table' : Table) : List Resolution :=
  table'.resolutions.drop table.resolutions.length

theorem since_append {table table' table'' : Table} (h : table.resolutions <+: table'.resolutions)
    (h' : table'.resolutions <+: table''.resolutions) :
    Since table table'' = Since table table' ++ Since table' table'' := by
  obtain ⟨new, hnew⟩ := h
  obtain ⟨more, hmore⟩ := h'
  unfold Since
  rw [← hmore, ← hnew]
  simp

/-- The indexes that a run of calls gave the types. -/
structure Resolved (table : Table) (history : List Resolution) (module : Nat)
    (block : Option TypeIdx) (types : List Ty) (idxs : List TypeIdx) : Prop where
  length : idxs.length = types.length
  usable : ∀ i ∈ idxs, table.storage.usable i = true
  calls : (List.zipWith (fun type idx => (⟨module, type, block, idx⟩ : Resolution)) types
    idxs).Sublist history

theorem Resolved.extend {table table' : Table} (h : Extends table table') {module : Nat}
    {self : Option TypeIdx} {types : List Ty} {idxs : List TypeIdx}
    (hr : Resolved table table.resolutions module self types idxs) :
    Resolved table' table'.resolutions module self types idxs :=
  ⟨hr.length, fun i hi => h.storage.usable (hr.usable i hi),
    hr.calls.trans h.resolutions.sublist⟩

/-- Copies of resolved types are slots for them. -/
theorem Resolved.slotsCopy {table table' : Table} (h : Extends table table') {module : Nat}
    {self : Option TypeIdx} {types : List Ty} {idxs : List TypeIdx}
    (hr : Resolved table table.resolutions module self types idxs) {slots : IdxRange}
    (hsize : slots.size = idxs.length)
    (hslots : ∃ nodes : List TypeNode, idxs.map (table.storage.types[·]?) = nodes.map some ∧
      slots.toList.map (table'.storage.types[·]?) = nodes.map some) :
    SlotsCopy table' module self types slots := by
  obtain ⟨nodes, hidxs, hslots⟩ := hslots
  exact ⟨hsize.trans hr.length, idxs, nodes, hr.length, hr.calls.trans h.resolutions.sublist,
    map_getElem?_mono h.storage.types hidxs, hslots⟩

/-- What `resolve_type` is promised of `intern_nominal`. -/
def Interns (p : Package) (intern : Nat → CheckM TypeIdx) (fuel : Nat) : Prop :=
  ∀ (st : CheckState) (e : Nat), (frame p).inv st → unstarted st.table.nominals ≤ fuel →
    e < st.table.nominals.length → Runs (frame p) (intern e) st fun idx st' =>
      st'.table.storage.usable idx = true ∧
      ∃ entry, st'.table.nominals[e]? = some entry ∧ entry.started = true

theorem recorded_steps {module : Nat} {type : Ty} {self : Option TypeIdx} {m : CheckM TypeIdx}
    (h : Runs (frame p) m st fun idx st' => st'.table.storage.usable idx = true ∧
      TupleMirrors st'.table ⟨module, type, self, idx⟩) :
    Runs (frame p) (recorded module type self m) st fun idx st' =>
      st'.table.storage.usable idx = true ∧
      ⟨module, type, self, idx⟩ ∈ Since st.table st'.table := by
  refine h.bind fun idx st₁ hs₁ hg₁ hidx => ?_
  have hg : Grows st₁.table { st₁.table with
      resolutions := st₁.table.resolutions ++ [⟨module, type, self, idx⟩] } :=
    .of_nominals (.refl _) rfl List.prefix_rfl (List.prefix_append _ _)
  refine (modifyTable_steps hs₁ (hs₁.1.extend hg.toExtends hs₁.1.closed (fun _ _ h => .inl h)
    (fun k hge hlt => absurd hlt (Nat.not_lt.2 hge))
    (fun idx node hge hidx => absurd (List.getElem?_eq_some_iff.1 hidx).1 (Nat.not_lt.2 hge))
    (fun _ h => .inl h) (fun r hm => ?_)) hg).bind fun _ st₂ hs₂ _ htable => .pure hs₂ ⟨?_, ?_⟩
  · rcases List.mem_append.1 hm with hm | hm
    · exact .inl hm
    · obtain rfl := List.mem_singleton.1 hm
      exact .inr ⟨Storage.usable_lt hidx.1, hidx.2.extend hg.toExtends⟩
  · rw [htable]
    exact hidx.1
  · obtain ⟨new, hnew⟩ := hg₁.resolutions
    unfold Since
    rw [htable, ← hnew, List.append_assoc, List.drop_left]
    exact List.mem_append_right _ (List.mem_singleton_self _)

theorem findNominal_lt {nominals : List NominalEntry} {module e : Nat} {name : String}
    (h : findNominal nominals module name = some e) : e < nominals.length :=
  (List.findIdx?_eq_some_iff_getElem.1 h).1

theorem lookupNominal_lt {nominals : List NominalEntry} {module target e : Nat} {path : Path}
    {name : String} (h : lookupNominal p nominals module path target name = some e) :
    e < nominals.length := by
  unfold lookupNominal at h
  split at h
  · next hfind =>
    obtain rfl := Option.some.inj h
    exact findNominal_lt hfind
  · split at h
    · obtain ⟨imp, -, himp⟩ := List.exists_of_findSome?_eq_some h
      split at himp
      · exact findNominal_lt himp
      · cases himp
    · cases h

/-- The error codes of type resolution. -/
theorem codes_ne_recursive : kAnalyzerUnknownType ≠ kAnalyzerRecursiveType ∧
    kAnalyzerArityMismatch ≠ kAnalyzerRecursiveType ∧
    kAnalyzerGenericArguments ≠ kAnalyzerRecursiveType ∧
    kAnalyzerUnsupportedType ≠ kAnalyzerRecursiveType := by decide

/-- An error is reported, and the error type stands for the type. -/
theorem rejected_steps {code : Nat} {span : Span} {message : String} (hs : (frame p).inv st)
    (hc : code ≠ kAnalyzerRecursiveType) :
    Runs (frame p) (do report code span message; errorType) st fun idx st' =>
      st'.table.storage.usable idx = true :=
  (report_steps hs hc).bind fun _ _ hs' _ _ => errorType_steps hs'

theorem resolveTypePath_steps {module : Nat} {path : Path} (hs : (frame p).inv st) :
    Runs (frame p) (resolveTypePath p module path) st fun _ _ => True := by
  unfold resolveTypePath
  split
  · exact .pure hs trivial
  · split
    · exact (report_steps hs codes_ne_recursive.1).bind fun _ _ hs' _ _ => .pure hs' trivial
    · exact .pure hs trivial

theorem primitiveType_steps {kind : PrimitiveKind} {span : Span} (hs : (frame p).inv st) :
    Runs (frame p) (primitiveType p kind span) st fun idx st' =>
      st'.table.storage.usable idx = true := by
  have hprim {tag : TypeTag} (ht : (⟨tag, 0⟩ : TypeNode) ∈ internPrimitives)
      (href : tag ≠ .ref ∧ tag ≠ .mutRef) : Runs (frame p) (pure (primitiveIdx tag)) st
      fun idx st' => st'.table.storage.usable idx = true :=
    .pure hs (hs.1.usable_primitive _ ht href)
  cases kind with
  | i128 | u128 => exact rejected_steps hs codes_ne_recursive.2.2.2
  | isize | usize =>
    unfold primitiveType
    cases p.width <;> exact hprim (by decide) (by decide)
  | _ => exact hprim (by decide) (by decide)

theorem selfType_steps {span : Span} {args : List Ty} {self : Option TypeIdx}
    (hs : (frame p).inv st)
    (hself : ∀ i, self = some i → st.table.storage.usable i = true) :
    Runs (frame p) (selfType span args self) st fun idx st' =>
      st'.table.storage.usable idx = true := by
  unfold selfType
  split
  · exact rejected_steps hs codes_ne_recursive.1
  · split
    · exact .pure hs (hself _ rfl)
    · exact rejected_steps hs codes_ne_recursive.2.2.1

theorem nominalType_steps {intern : Nat → CheckM TypeIdx} {fuel : Nat} (hi : Interns p intern fuel)
    {module : Nat} {span : Span} {path : Path} (hs : (frame p).inv st)
    (hf : unstarted st.table.nominals ≤ fuel) :
    Runs (frame p) (nominalType p intern module span path) st fun idx st' =>
      st'.table.storage.usable idx = true := by
  refine (resolveTypePath_steps hs).bind fun target st₁ hs₁ hg₁ _ => ?_
  cases target with
  | none => exact errorType_steps hs₁
  | some target =>
    refine .get ?_
    cases hlook : lookupNominal p st₁.table.nominals module path target.1 target.2 with
    | none => exact rejected_steps hs₁ codes_ne_recursive.1
    | some e =>
      refine (hi st₁ e hs₁ (Nat.le_trans hg₁.unstarted_le hf) (lookupNominal_lt hlook)).mono ?_
      exact fun _ _ _ _ h => h.1

/-- Only a tuple type has something to mirror. -/
theorem tupleMirrors_of_ne {table : Table} {r : Resolution}
    (h : ∀ span elements, r.type ≠ .tuple span elements) : TupleMirrors table r :=
  fun span elements heq => absurd heq (h span elements)

/-- What each call of `resolve_type` leaves behind. -/
def ResolvesTo (p : Package) (module : Nat) (self : Option TypeIdx) (type : Ty) (st : CheckState)
    (m : CheckM TypeIdx) : Prop :=
  Runs (frame p) m st fun idx st' => st'.table.storage.usable idx = true ∧
    ⟨module, type, self, idx⟩ ∈ Since st.table st'.table

/-- A type that has no elements is resolved to a type of the table. -/
theorem resolvesTo_of_usable {module : Nat} {self : Option TypeIdx} {type : Ty}
    {m : CheckM TypeIdx} (htype : ∀ span elements, type ≠ .tuple span elements)
    (h : Runs (frame p) m st fun idx st' => st'.table.storage.usable idx = true) :
    ResolvesTo p module self type st (recorded module type self m) :=
  recorded_steps (h.mono fun _ _ _ _ hidx => ⟨hidx, tupleMirrors_of_ne htype⟩)

section Resolve

variable {intern : Nat → CheckM TypeIdx} {fuel : Nat} {module : Nat} {self : Option TypeIdx}

/-- What a list of calls leaves behind. -/
def ResolvesAll (p : Package) (module : Nat) (self : Option TypeIdx) (types : List Ty)
    (st : CheckState) (m : CheckM (List TypeIdx)) : Prop :=
  Runs (frame p) m st fun idxs st' =>
    Resolved st'.table (Since st.table st'.table) module self types idxs

theorem resolveTuple_steps {span : Span} {elements : List Ty} {m : CheckM (List TypeIdx)}
    (h : ResolvesAll p module self elements st m) :
    ResolvesTo p module self (.tuple span elements) st
      (recorded module (.tuple span elements) self do
        let elements ← m
        let range ← build (StorageBuilder.copySeq elements)
        build (StorageBuilder.tupleType range)) := by
  refine recorded_steps (h.bind fun idxs st₁ hs₁ _ hidxs => ?_)
  refine (copySeq_steps hs₁ hidxs.usable).bind fun range st₂ hs₂ hg₂ hrange => ?_
  refine (tupleType_steps hs₂ hrange.within).mono fun idx st₃ hs₃ hg₃ hnode => ?_
  obtain ⟨k, row, hidx, hrow, hsize, hlist⟩ := hnode
  refine ⟨hs₃.1.usable_node hidx (.inr (.inr rfl)), fun _ _ heq => ?_⟩
  obtain ⟨-, rfl⟩ := Ty.tuple.inj heq
  have hres : Resolved st₁.table st₁.table.resolutions module self elements idxs :=
    ⟨hidxs.length, hidxs.usable, hidxs.calls.trans (List.drop_sublist _ _)⟩
  obtain ⟨nodes, hnodes, hslots⟩ := hrange.slots
  refine ⟨k, row, hidx, hrow, hres.slotsCopy (hg₂.trans hg₃).toExtends (hsize.trans hrange.size)
    ⟨nodes, hnodes, ?_⟩⟩
  rw [hlist]
  exact map_getElem?_mono hg₃.storage.types hslots

/-- The arguments of `Result` and `Option`. -/
theorem resolveBlessed_steps {isResult : Bool} {args : List Ty} {m : CheckM (List TypeIdx)}
    (hfit : args.length = blessedArity isResult) (h : ResolvesAll p module self args st m) :
    Runs (frame p) (do
      let args ← m
      internBlessed p isResult args) st fun idx st' => st'.table.storage.usable idx = true :=
  h.bind fun _ _ hs' _ hidxs => internBlessed_steps hs' (hidxs.length.trans hfit) hidxs.usable

theorem resolvesAll_cons {type : Ty} {types : List Ty} {m : CheckM TypeIdx}
    {ms : CheckM (List TypeIdx)} (h : ResolvesTo p module self type st m)
    (hs : ∀ st', (frame p).inv st' → Grows st.table st'.table →
      ResolvesAll p module self types st' ms) :
    ResolvesAll p module self (type :: types) st (do
      let idx ← m
      let idxs ← ms
      return idx :: idxs) := by
  refine h.bind fun idx st₁ hs₁ hg₁ hidx => ?_
  refine (hs st₁ hs₁ hg₁).bind fun idxs st₂ hs₂ hg₂ hidxs => .pure hs₂ ⟨?_, ?_, ?_⟩
  · rw [List.length_cons, List.length_cons, hidxs.length]
  · intro i hi
    rcases List.mem_cons.1 hi with rfl | hi
    · exact hg₂.storage.usable hidx.1
    · exact hidxs.usable i hi
  · rw [since_append hg₁.resolutions hg₂.resolutions]
    exact (List.singleton_sublist.2 hidx.2).append hidxs.calls

mutual

/-- **A type is resolved to a type of the table**, whatever it is. -/
theorem resolveType_steps (hi : Interns p intern fuel) : ∀ (type : Ty) {st : CheckState},
    (frame p).inv st → unstarted st.table.nominals ≤ fuel →
    (∀ i, self = some i → st.table.storage.usable i = true) →
    ResolvesTo p module self type st (resolveType p intern module self type)
  | .primitive span kind, st, hs, _, _ => by
    unfold resolveType
    exact resolvesTo_of_usable (by simp) (primitiveType_steps hs)
  | .unit span, st, hs, _, _ => by
    unfold resolveType
    exact resolvesTo_of_usable (by simp)
      (.pure hs (hs.1.usable_primitive .void (by decide) (by decide)))
  | .never span, st, hs, _, _ => by
    unfold resolveType
    exact resolvesTo_of_usable (by simp) (markerType_steps (.inl rfl) hs)
  | .str span, st, hs, _, _ => by
    unfold resolveType
    exact resolvesTo_of_usable (by simp)
      (.pure hs (hs.1.usable_primitive .str (by decide) (by decide)))
  | .tuple span elements, st, hs, hf, hself => by
    unfold resolveType
    exact resolveTuple_steps (resolveTypes_steps hi elements hs hf hself)
  | .ref span isMut inner, st, hs, hf, hself => by
    unfold resolveType
    exact resolvesTo_of_usable (by simp) ((resolveType_steps hi inner hs hf hself).bind
      fun _ _ hs' _ _ => referenceType_steps hs')
  | .path span path args, st, hs, hf, hself => by
    unfold resolveType
    refine resolvesTo_of_usable (by simp) ?_
    split
    · exact selfType_steps hs hself
    split
    · split
      · exact rejected_steps hs codes_ne_recursive.2.1
      · next hfit =>
        exact resolveBlessed_steps (Decidable.not_not.1 hfit)
          (resolveTypes_steps hi args hs hf hself)
    · split
      · exact nominalType_steps hi hs hf
      · exact rejected_steps hs codes_ne_recursive.2.2.1

theorem resolveTypes_steps (hi : Interns p intern fuel) : ∀ (types : List Ty) {st : CheckState},
    (frame p).inv st → unstarted st.table.nominals ≤ fuel →
    (∀ i, self = some i → st.table.storage.usable i = true) →
    ResolvesAll p module self types st (resolveTypes p intern module self types)
  | [], st, hs, _, _ => by
    unfold resolveTypes
    exact .pure hs ⟨rfl, by simp, List.nil_sublist _⟩
  | type :: types, st, hs, hf, hself => by
    unfold resolveTypes
    refine resolvesAll_cons (resolveType_steps hi type hs hf hself) fun st' hs' hg' => ?_
    exact resolveTypes_steps hi types hs' (Nat.le_trans hg'.unstarted_le hf)
      fun i h => hg'.storage.usable (hself i h)

end

end Resolve

end Alcy.Analyzer.Types
