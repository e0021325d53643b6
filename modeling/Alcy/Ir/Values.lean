import Alcy.Ir.Storage
import Alcy.Lib.Cycle

/-! # What a type holds by value

The types that a value of a type contains: the fields of a struct, the payloads of an enum, the
elements of a tuple, the element of an array. A reference contains nothing.
-/
namespace Alcy.Ir.Storage

variable (s : Storage)

/-- The payloads of a run of variants, one after the other. -/
def payloadParts : List EnumVariantTypeIdx → Option (List TypeIdx)
  | [] => some []
  | idx :: rest => do
    let variant ← s.enumVariantTypes[idx]?
    let parts ← payloadParts rest
    some (variant.fields.toList ++ parts)

/-- What a node holds, in the order in which the source's loops visit it. -/
def nodeParts (node : TypeNode) : Option (List TypeIdx) :=
  match node.tag with
  | .struct => (s.structTypes[node.data]?).map (·.fields.toList)
  | .enum => (s.enumTypes[node.data]?).bind fun row => s.payloadParts row.variants.toList
  | .tuple => (s.tupleTypes[node.data]?).map (·.elements.toList)
  | .array => (s.arrayTypes[node.data]?).map fun row => [row.element]
  | _ => some []

def valueParts (idx : TypeIdx) : Option (List TypeIdx) := (s.types[idx]?).bind s.nodeParts

/-- By-value containment of type indexes. -/
def Holds (idx part : TypeIdx) : Prop := ∃ parts, s.valueParts idx = some parts ∧ part ∈ parts

/-- `is_copy_type`: no exclusive reference in it, at any depth by value. -/
def isCopyType : Nat → TypeIdx → Option Bool
  | 0, _ => none
  | fuel + 1, idx => do
    let node ← s.types[idx]?
    if node.tag = .mutRef then some false
    else do
      let parts ← s.nodeParts node
      parts.allM (isCopyType fuel)

/-! ## Nodes with their metadata -/

/-- The row that the metadata index of a node names is there. -/
def readable (node : TypeNode) : Bool :=
  match node.tag with
  | .struct => node.data < s.structTypes.length
  | .enum => node.data < s.enumTypes.length
  | .tuple => node.data < s.tupleTypes.length
  | .array => node.data < s.arrayTypes.length
  | .ref | .mutRef => node.data < s.refTypes.length
  | _ => true

/-- A type with its metadata. The placeholders for references that the table begins with have
none. -/
def usable (idx : TypeIdx) : Bool := (s.types[idx]?).any s.readable

end Alcy.Ir.Storage

namespace Alcy.Ir

/-- The range lies in a table of `n` rows. -/
def IdxRange.Within (r : IdxRange) (n : Nat) : Prop := r.head + r.size ≤ n

theorem IdxRange.Within.mono {r : IdxRange} {n m : Nat} (h : r.Within n) (hn : n ≤ m) :
    r.Within m := Nat.le_trans h hn

theorem IdxRange.Within.lt {r : IdxRange} {n i : Nat} (h : r.Within n) (hi : i ∈ r.toList) :
    i < n := by
  have hm := IdxRange.mem_toList.1 hi
  unfold IdxRange.Within at h
  omega

/-! ## Closed tables -/

/-- Every range lies in its table, and every node but the primitives has its metadata. No source
builds an array. -/
structure Storage.Closed (s : Storage) : Prop where
  prims : internPrimitives <+: s.types
  nodes : ∀ node ∈ s.types, node ∈ internPrimitives ∨ s.readable node = true
  structs : ∀ row ∈ s.structTypes, row.fields.Within s.types.length
  variants : ∀ row ∈ s.enumVariantTypes, row.fields.Within s.types.length
  enums : ∀ row ∈ s.enumTypes, row.variants.Within s.enumVariantTypes.length
  tuples : ∀ row ∈ s.tupleTypes, row.elements.Within s.types.length
  arrays : s.arrayTypes = []

namespace Storage

variable {s s' : Storage}

theorem payloadParts_total {n : Nat} (hrow : ∀ row ∈ s.enumVariantTypes, row.fields.Within n)
    {l : List EnumVariantTypeIdx} (hl : ∀ i ∈ l, i < s.enumVariantTypes.length) :
    ∃ parts, s.payloadParts l = some parts ∧ ∀ j ∈ parts, j < n := by
  induction l with
  | nil => exact ⟨[], rfl, by simp⟩
  | cons i l ih =>
    obtain ⟨hi, hrest⟩ := List.forall_mem_cons.1 hl
    obtain ⟨parts, hparts, hlt⟩ := ih hrest
    have hget : s.enumVariantTypes[i]? = some s.enumVariantTypes[i] := List.getElem?_eq_getElem hi
    refine ⟨s.enumVariantTypes[i].fields.toList ++ parts, ?_, ?_⟩
    · simp only [payloadParts, hget, hparts, Option.bind_eq_bind, Option.bind_some]
    · intro j hj
      rcases List.mem_append.1 hj with hj | hj
      · exact (hrow _ (List.getElem_mem hi)).lt hj
      · exact hlt j hj

/-- A primitive holds nothing. -/
theorem nodeParts_primitive {node : TypeNode} (h : node ∈ internPrimitives) :
    s.nodeParts node = some [] := by
  have htag : ∀ node ∈ internPrimitives, node.tag ≠ .struct ∧ node.tag ≠ .enum ∧
      node.tag ≠ .tuple ∧ node.tag ≠ .array := by decide
  obtain ⟨h₁, h₂, h₃, h₄⟩ := htag node h
  unfold Storage.nodeParts
  split <;> first | contradiction | rfl

/-- **What a node of a closed table holds is in the table.** -/
theorem Closed.nodeParts (h : s.Closed) {node : TypeNode} (hn : node ∈ s.types) :
    ∃ parts, s.nodeParts node = some parts ∧ ∀ j ∈ parts, j < s.types.length := by
  rcases h.nodes node hn with hmem | hread
  · exact ⟨[], nodeParts_primitive hmem, by simp⟩
  unfold Storage.nodeParts
  unfold readable at hread
  split at hread <;> rename_i htag
  · have hlt : node.data < s.structTypes.length := by simpa using hread
    simp only [htag, List.getElem?_eq_getElem hlt, Option.map_some]
    exact ⟨_, rfl, fun j hj => (h.structs _ (List.getElem_mem hlt)).lt hj⟩
  · have hlt : node.data < s.enumTypes.length := by simpa using hread
    simp only [htag, List.getElem?_eq_getElem hlt, Option.bind_some]
    exact payloadParts_total h.variants fun i hi => (h.enums _ (List.getElem_mem hlt)).lt hi
  · have hlt : node.data < s.tupleTypes.length := by simpa using hread
    simp only [htag, List.getElem?_eq_getElem hlt, Option.map_some]
    exact ⟨_, rfl, fun j hj => (h.tuples _ (List.getElem_mem hlt)).lt hj⟩
  · simp [h.arrays] at hread
  · simp [htag]
  · simp [htag]
  · refine ⟨[], ?_, by simp⟩
    split <;> first | contradiction | rfl

theorem Closed.valueParts (h : s.Closed) {idx : TypeIdx} (hi : idx < s.types.length) :
    ∃ parts, s.valueParts idx = some parts ∧ ∀ j ∈ parts, j < s.types.length := by
  obtain ⟨parts, hp, hlt⟩ := h.nodeParts (List.getElem_mem hi)
  refine ⟨parts, ?_, hlt⟩
  rw [Storage.valueParts, List.getElem?_eq_getElem hi, Option.bind_some, hp]

/-! ## Growth -/

/-- The rows of the first table stay where they are. -/
structure Extends (s s' : Storage) : Prop where
  types : s.types <+: s'.types
  structs : s.structTypes <+: s'.structTypes
  enums : s.enumTypes <+: s'.enumTypes
  variants : s.enumVariantTypes <+: s'.enumVariantTypes
  refs : s.refTypes <+: s'.refTypes
  tuples : s.tupleTypes <+: s'.tupleTypes
  arrays : s.arrayTypes <+: s'.arrayTypes

end Storage

/-- A row of a table is a row of a longer one. -/
theorem getElem?_mono {α : Type} {l l' : List α} (h : l <+: l') {i : Nat} {a : α}
    (hi : l[i]? = some a) : l'[i]? = some a := by
  obtain ⟨rest, rfl⟩ := h
  rw [List.getElem?_append_left (List.getElem?_eq_some_iff.1 hi).1, hi]

/-- A change behind a prefix is none to it. -/
theorem prefix_set {α : Type} {l l' : List α} (h : l <+: l') {k : Nat} (hk : l.length ≤ k)
    (a : α) : l <+: l'.set k a := by
  obtain ⟨rest, rfl⟩ := h
  rw [List.set_append_right _ _ hk]
  exact List.prefix_append _ _

theorem map_getElem?_mono {α : Type} {l l' : List α} (h : l <+: l') {is : List Nat}
    {as : List α} (his : is.map (l[·]?) = as.map some) : is.map (l'[·]?) = as.map some := by
  rw [← his]
  refine List.map_congr_left fun i hi => ?_
  have hmem : l[i]? ∈ as.map some := his ▸ List.mem_map_of_mem hi
  obtain ⟨a, -, ha⟩ := List.mem_map.1 hmem
  rw [← ha]
  exact getElem?_mono h ha.symm

namespace Storage

variable {s s' : Storage}

theorem Extends.refl (s : Storage) : s.Extends s :=
  ⟨List.prefix_rfl, List.prefix_rfl, List.prefix_rfl, List.prefix_rfl, List.prefix_rfl,
    List.prefix_rfl, List.prefix_rfl⟩

theorem Extends.trans {s'' : Storage} (h : s.Extends s') (h' : s'.Extends s'') : s.Extends s'' :=
  ⟨h.types.trans h'.types, h.structs.trans h'.structs, h.enums.trans h'.enums,
    h.variants.trans h'.variants, h.refs.trans h'.refs, h.tuples.trans h'.tuples,
    h.arrays.trans h'.arrays⟩

theorem Extends.readable (h : s.Extends s') {node : TypeNode} (hn : s.readable node = true) :
    s'.readable node = true := by
  have h₁ := h.structs.length_le
  have h₂ := h.enums.length_le
  have h₃ := h.tuples.length_le
  have h₄ := h.arrays.length_le
  have h₅ := h.refs.length_le
  unfold Storage.readable at hn ⊢
  split at hn <;> simp_all <;> omega

theorem usable_iff {idx : TypeIdx} :
    s.usable idx = true ↔ ∃ node, s.types[idx]? = some node ∧ s.readable node = true :=
  Option.any_eq_true _ _

theorem usable_lt {idx : TypeIdx} (h : s.usable idx = true) : idx < s.types.length := by
  obtain ⟨node, hn, -⟩ := usable_iff.1 h
  exact (List.getElem?_eq_some_iff.1 hn).1

theorem Extends.usable (h : s.Extends s') {idx : TypeIdx} (hi : s.usable idx = true) :
    s'.usable idx = true := by
  obtain ⟨node, hn, hr⟩ := usable_iff.1 hi
  exact usable_iff.2 ⟨node, getElem?_mono h.types hn, h.readable hr⟩

theorem Extends.payloadParts (h : s.Extends s') {l : List EnumVariantTypeIdx}
    {parts : List TypeIdx} (hl : s.payloadParts l = some parts) :
    s'.payloadParts l = some parts := by
  induction l generalizing parts with
  | nil => exact hl
  | cons i l ih =>
    simp only [Storage.payloadParts, Option.bind_eq_bind, Option.bind_eq_some_iff] at hl ⊢
    obtain ⟨row, hrow, rest, hrest, heq⟩ := hl
    exact ⟨row, getElem?_mono h.variants hrow, rest, ih hrest, heq⟩

theorem Extends.nodeParts (h : s.Extends s') {node : TypeNode} {parts : List TypeIdx}
    (hn : s.nodeParts node = some parts) : s'.nodeParts node = some parts := by
  unfold Storage.nodeParts at hn ⊢
  split at hn
  · obtain ⟨row, hrow, heq⟩ := Option.map_eq_some_iff.1 hn
    rw [getElem?_mono h.structs hrow, Option.map_some, heq]
  · obtain ⟨row, hrow, heq⟩ := Option.bind_eq_some_iff.1 hn
    rw [getElem?_mono h.enums hrow, Option.bind_some]
    exact h.payloadParts heq
  · obtain ⟨row, hrow, heq⟩ := Option.map_eq_some_iff.1 hn
    rw [getElem?_mono h.tuples hrow, Option.map_some, heq]
  · obtain ⟨row, hrow, heq⟩ := Option.map_eq_some_iff.1 hn
    rw [getElem?_mono h.arrays hrow, Option.map_some, heq]
  · exact hn

/-- **Growing keeps the tables closed** when what is new is in range. -/
theorem Closed.grow (h : s.Closed) (he : s.Extends s')
    (hnodes : ∀ node ∈ s'.types, node ∈ s.types ∨ s'.readable node = true)
    (hstructs : ∀ row ∈ s'.structTypes, row ∈ s.structTypes ∨ row.fields.Within s'.types.length)
    (hvariants : ∀ row ∈ s'.enumVariantTypes, row ∈ s.enumVariantTypes ∨
      row.fields.Within s'.types.length)
    (henums : ∀ row ∈ s'.enumTypes, row ∈ s.enumTypes ∨
      row.variants.Within s'.enumVariantTypes.length)
    (htuples : ∀ row ∈ s'.tupleTypes, row ∈ s.tupleTypes ∨ row.elements.Within s'.types.length)
    (harrays : s'.arrayTypes = s.arrayTypes) : s'.Closed where
  prims := h.prims.trans he.types
  nodes node hm := by
    rcases hnodes node hm with hold | hnew
    · exact (h.nodes node hold).imp id he.readable
    · exact .inr hnew
  structs row hm :=
    (hstructs row hm).elim (fun hold => (h.structs row hold).mono he.types.length_le) id
  variants row hm :=
    (hvariants row hm).elim (fun hold => (h.variants row hold).mono he.types.length_le) id
  enums row hm :=
    (henums row hm).elim (fun hold => (h.enums row hold).mono he.variants.length_le) id
  tuples row hm :=
    (htuples row hm).elim (fun hold => (h.tuples row hold).mono he.types.length_le) id
  arrays := harrays.trans h.arrays

/-- Payloads are read from the variants alone. -/
theorem payloadParts_congr (h : s'.enumVariantTypes = s.enumVariantTypes)
    (l : List EnumVariantTypeIdx) : s'.payloadParts l = s.payloadParts l := by
  induction l with
  | nil => rfl
  | cons i l ih => simp only [payloadParts, h, ih]

/-- Only the row of one node is another one. -/
structure Refilled (s s' : Storage) (node : TypeNode) : Prop where
  types : s'.types = s.types
  variants : s'.enumVariantTypes = s.enumVariantTypes
  refs : s'.refTypes = s.refTypes
  tuples : s'.tupleTypes = s.tupleTypes
  arrays : s'.arrayTypes = s.arrayTypes
  structsLength : s'.structTypes.length = s.structTypes.length
  enumsLength : s'.enumTypes.length = s.enumTypes.length
  structs : ∀ k : Nat, ⟨.struct, k⟩ ≠ node → s'.structTypes[k]? = s.structTypes[k]?
  enums : ∀ k : Nat, ⟨.enum, k⟩ ≠ node → s'.enumTypes[k]? = s.enumTypes[k]?

theorem Refilled.readable {node : TypeNode} (h : Refilled s s' node) :
    s'.readable = s.readable := by
  funext other
  unfold Storage.readable
  rw [h.structsLength, h.enumsLength, h.tuples, h.arrays, h.refs]

/-- Every other node holds what it held. -/
theorem Refilled.nodeParts {node other : TypeNode} (h : Refilled s s' node) (hne : other ≠ node) :
    s'.nodeParts other = s.nodeParts other := by
  obtain ⟨tag, data⟩ := other
  unfold Storage.nodeParts
  cases tag <;> simp only [h.tuples, h.arrays, payloadParts_congr h.variants]
  · rw [h.structs data hne]
  · rw [h.enums data hne]

/-! ## Copying ends -/

open Alcy.Lib.Unfold (Enough unfold unfold_isSome)

/-- What containment reaches from a type of a closed table is in the table. -/
theorem Closed.reaches (h : s.Closed) {idx part : TypeIdx} (hi : idx < s.types.length)
    (hr : Relation.ReflTransGen s.Holds idx part) : part < s.types.length := by
  induction hr with
  | refl => exact hi
  | tail _ hstep ih =>
    obtain ⟨parts, hp, hmem⟩ := hstep
    obtain ⟨parts', hp', hlt⟩ := h.valueParts ih
    obtain rfl : parts = parts' := Option.some.inj (hp.symm.trans hp')
    exact hlt _ hmem

/-- A depth of one more than there are types is enough for any search. -/
theorem enough_depth (s : Storage) : Enough s.valueParts (s.types.length + 1) [] := by
  have hlen : (List.range s.types.length).length < s.types.length + 1 := by simp
  refine Enough.start (fun idx hi => ?_) hlen
  obtain ⟨parts, hp⟩ := Option.isSome_iff_exists.1 hi
  obtain ⟨node, hn, -⟩ := Option.bind_eq_some_iff.1 hp
  exact List.mem_range.2 (List.getElem?_eq_some_iff.1 hn).1

/-- Where the parts unfold, the question is answered within the same depth. -/
theorem isCopyType_of_unfold {n : Nat} {path : List TypeIdx} {idx : TypeIdx}
    (h : (unfold s.valueParts n path idx).isSome = true) : (s.isCopyType n idx).isSome = true := by
  induction n generalizing path idx with
  | zero => cases h
  | succ n ih =>
    obtain ⟨_, hl⟩ := Option.isSome_iff_exists.1 h
    obtain ⟨-, parts, lists, hparts, hlists, -⟩ := Lib.Unfold.unfold_eq_some.1 hl
    obtain ⟨node, hnode, hp⟩ := Option.bind_eq_some_iff.1 hparts
    simp only [isCopyType, hnode, Option.bind_eq_bind, Option.bind_some]
    split
    · rfl
    · rw [hp, Option.bind_some]
      have hsome : (parts.mapM (unfold s.valueParts n (path ++ [idx]))).isSome = true := by
        rw [Lib.Unfold.mapM_eq_some.2 hlists]
        rfl
      have hbelow := Lib.Unfold.mapM_isSome.1 hsome
      exact Lib.Cycle.allM_isSome fun part hpart => ih (hbelow part hpart)

/-- **Without a cycle of containment, copyability is decided for every type.** -/
theorem Closed.isCopyType_isSome (h : s.Closed)
    (hacyc : ∀ i, ¬ Relation.TransGen s.Holds i i) {idx : TypeIdx} (hi : idx < s.types.length) :
    (s.isCopyType (s.types.length + 1) idx).isSome = true := by
  refine isCopyType_of_unfold ((unfold_isSome s.enough_depth).2 fun part hr => ?_)
  obtain ⟨parts, hp, -⟩ := h.valueParts (h.reaches hi hr)
  exact ⟨hp ▸ rfl, List.not_mem_nil, hacyc part⟩

end Storage

end Alcy.Ir
