import Alcy.Ir.Values

/-! # Building the type table

The part of `StorageBuilder` that appends to the type tables, and `SeqBuilder`. A builder program is
stuck where a table is read out of range and where one of the source's checks fails, so that a
program that finishes has passed every one of them.
-/
namespace Alcy.Ir

inductive PointerWidth where
  | w32
  | w64
  deriving DecidableEq

/-- What the default constructor leaves: the primitives, nothing else. -/
def Storage.initial : Storage where
  functions := []
  blocks := []
  blockParams := []
  instrs := []
  immutables := []
  registers := []
  externalFunctions := []
  operands := []
  types := internPrimitives
  structTypes := []
  arrayTypes := []
  enumTypes := []
  enumVariantTypes := []
  refTypes := []
  tupleTypes := []

/-! ## Sequences -/

/-- `SeqBuilder`: consecutive indexes, gathered into a range. -/
structure SeqBuilder where
  head : Nat
  count : Nat

namespace SeqBuilder

def empty : SeqBuilder := ⟨0, 0⟩

/-- `push`, which is stuck where its check fails. -/
def push (seq : SeqBuilder) (idx : Nat) : Option SeqBuilder :=
  let head := if seq.count = 0 then idx else seq.head
  if idx = head + seq.count then some ⟨head, seq.count + 1⟩ else none

def finish (seq : SeqBuilder) : IdxRange := ⟨seq.head, seq.count⟩

end SeqBuilder

/-! ## The builder -/

abbrev Build := StateT Storage Option

namespace StorageBuilder

/-- A node appended to the type table. -/
def pushType (node : TypeNode) : Build TypeIdx := fun s =>
  some (s.types.length, { s with types := s.types ++ [node] })

def reserveStruct (name : StringPoolId) : Build TypeIdx := fun s =>
  pushType ⟨.struct, s.structTypes.length⟩
    { s with structTypes := s.structTypes ++ [⟨name, ⟨0, 0⟩⟩] }

def fillStruct (idx : TypeIdx) (fields : IdxRange) : Build Unit := fun s => do
  let node ← s.types[idx]?
  let data ← node.asStruct
  let row ← s.structTypes[data]?
  some ((), { s with structTypes := s.structTypes.set data { row with fields } })

def reserveEnum (name : StringPoolId) : Build TypeIdx := fun s =>
  pushType ⟨.enum, s.enumTypes.length⟩ { s with enumTypes := s.enumTypes ++ [⟨name, ⟨0, 0⟩⟩] }

def fillEnum (idx : TypeIdx) (variants : IdxRange) : Build Unit := fun s => do
  let node ← s.types[idx]?
  let data ← node.asEnum
  let row ← s.enumTypes[data]?
  some ((), { s with enumTypes := s.enumTypes.set data { row with variants } })

def enumType (name : StringPoolId) (variants : IdxRange) : Build TypeIdx := fun s =>
  pushType ⟨.enum, s.enumTypes.length⟩ { s with enumTypes := s.enumTypes ++ [⟨name, variants⟩] }

def enumVariant (name : StringPoolId) (fields : IdxRange) : Build EnumVariantTypeIdx := fun s =>
  some (s.enumVariantTypes.length,
    { s with enumVariantTypes := s.enumVariantTypes ++ [⟨name, fields⟩] })

/-- The scans of the interning functions: the first node past the primitives that fits. -/
def scan (s : Storage) (fits : TypeNode → Bool) : Option TypeIdx :=
  ((s.types.drop (kPrimitiveTypeCount + 1)).findIdx? fits).map (· + (kPrimitiveTypeCount + 1))

def referenceType (pointee : TypeIdx) (isMut : Bool) : Build TypeIdx := fun s =>
  let tag := if isMut then TypeTag.mutRef else .ref
  let fits (node : TypeNode) : Bool :=
    node.tag = tag && s.refTypes[node.data]?.any fun row => row.pointee = pointee
  match scan s fits with
  | some idx => some (idx, s)
  | none => pushType ⟨tag, s.refTypes.length⟩ { s with refTypes := s.refTypes ++ [⟨pointee⟩] }

def tupleType (elements : IdxRange) : Build TypeIdx := fun s =>
  let fits (node : TypeNode) : Bool :=
    node.tag = .tuple && s.tupleTypes[node.data]?.any fun row =>
      row.elements.toList = elements.toList
  match scan s fits with
  | some idx => some (idx, s)
  | none => pushType ⟨.tuple, s.tupleTypes.length⟩ { s with tupleTypes := s.tupleTypes ++ [⟨elements⟩] }

/-- `never_type` and `error_type`: one node of the tag, made when it is first asked for. -/
def markerType (tag : TypeTag) : Build TypeIdx := fun s =>
  match scan s fun node => node.tag = tag with
  | some idx => some (idx, s)
  | none => pushType ⟨tag, 0⟩ s

def neverType : Build TypeIdx := markerType .never

def errorType : Build TypeIdx := markerType .error

/-- A copy of a node, for a slot of a range. -/
def refType (idx : TypeIdx) : Build TypeIdx := fun s => do
  let node ← s.types[idx]?
  pushType node s

/-- One turn of the loop that fills a `TypeSeq`. -/
def copySlot (seq : SeqBuilder) (type : TypeIdx) : Build SeqBuilder := do
  let slot ← refType type
  seq.push slot

/-- The loop that fills a `TypeSeq` with copies of resolved types. -/
def copySeq (types : List TypeIdx) : Build IdxRange := do
  let seq ← types.foldlM copySlot SeqBuilder.empty
  return seq.finish

/-! ## What the sequences hold -/

end StorageBuilder

namespace SeqBuilder

/-- `idx` is the index that the next push has to bring. -/
def Next (seq : SeqBuilder) (idx : Nat) : Prop := seq = empty ∨ seq.head + seq.count = idx

theorem Next.within {seq : SeqBuilder} {idx : Nat} (h : seq.Next idx) :
    seq.finish.Within idx := by
  rcases h with rfl | h
  · exact Nat.zero_le _
  · exact Nat.le_of_eq h

/-- **The check lets the next index through.** -/
theorem Next.push {seq : SeqBuilder} {idx : Nat} (h : seq.Next idx) :
    ∃ seq', seq.push idx = some seq' ∧ seq'.Next (idx + 1) ∧
      seq'.finish.toList = seq.finish.toList ++ [idx] := by
  by_cases hc : seq.count = 0
  · refine ⟨⟨idx, 1⟩, by simp [SeqBuilder.push, hc], .inr rfl, ?_⟩
    simp [finish, IdxRange.toList, hc]
  · have hidx : seq.head + seq.count = idx := by
      rcases h with rfl | h
      · exact absurd rfl hc
      · exact h
    refine ⟨⟨seq.head, seq.count + 1⟩, by simp [SeqBuilder.push, hc, hidx], .inr ?_, ?_⟩
    · show seq.head + (seq.count + 1) = idx + 1
      omega
    simp [finish, IdxRange.toList, List.range'_concat, hidx]

end SeqBuilder

namespace StorageBuilder

/-- The type table with nodes appended. -/
def withTypes (s : Storage) (nodes : List TypeNode) : Storage :=
  { s with types := s.types ++ nodes }

theorem refType_eq {s : Storage} {idx : TypeIdx} {node : TypeNode} (h : s.types[idx]? = some node) :
    refType idx s = some (s.types.length, withTypes s [node]) := by
  simp only [refType, h]
  rfl

theorem foldlM_cons {α β : Type} (f : β → α → Build β) (b : β) (a : α) (l : List α) (s : Storage) :
    (a :: l).foldlM f b s = (f b a s).bind fun r => l.foldlM f r.1 r.2 := rfl

/-- The copies go to the end of the table, one after the other, and no check fails. -/
theorem copyAll_eq (types : List TypeIdx) : ∀ (seq : SeqBuilder) (s : Storage),
    seq.Next s.types.length → (∀ i ∈ types, i < s.types.length) →
    ∃ seq' nodes, types.foldlM copySlot seq s = some (seq', withTypes s nodes) ∧
      types.map (s.types[·]?) = nodes.map some ∧
      seq'.Next (s.types.length + nodes.length) ∧
      seq'.finish.toList = seq.finish.toList ++ List.range' s.types.length nodes.length := by
  induction types with
  | nil =>
    intro seq s hseq _
    exact ⟨seq, [], by simp [withTypes]; rfl, rfl, hseq, by simp⟩
  | cons type types ih =>
    intro seq s hseq hlt
    obtain ⟨hi, hrest⟩ := List.forall_mem_cons.1 hlt
    have hnode : s.types[type]? = some s.types[type] := List.getElem?_eq_getElem hi
    obtain ⟨seq₁, hpush, hseq₁, hlist₁⟩ := hseq.push
    have hlen : (withTypes s [s.types[type]]).types.length = s.types.length + 1 := by
      simp [withTypes]
    obtain ⟨seq', nodes, hrun, hnodes, hseq', hlist⟩ := ih seq₁ (withTypes s [s.types[type]])
      (by rw [hlen]; exact hseq₁) fun i hm => by rw [hlen]; exact Nat.lt_succ_of_lt (hrest i hm)
    have hold : types.map ((withTypes s [s.types[type]]).types[·]?) = types.map (s.types[·]?) :=
      List.map_congr_left fun i hm => List.getElem?_append_left (hrest i hm)
    refine ⟨seq', s.types[type] :: nodes, ?_, ?_, ?_, ?_⟩
    · rw [foldlM_cons]
      have hstep : copySlot seq type s = some (seq₁, withTypes s [s.types[type]]) := by
        show (refType type s).bind (fun r => (liftM (seq.push r.1) : Build SeqBuilder) r.2) = _
        rw [refType_eq hnode, Option.bind_some, hpush]
        rfl
      rw [hstep, Option.bind_some, hrun]
      simp [withTypes]
    · rw [List.map_cons, List.map_cons, hnode, ← hnodes, hold]
    · rw [hlen, Nat.add_assoc, Nat.add_comm 1] at hseq'
      exact hseq'
    · rw [hlist, hlist₁, hlen, List.append_assoc]
      simp [List.range'_succ]

/-- **A sequence of copies**: its slots hold the nodes of the types, in their order. -/
theorem copySeq_eq {s : Storage} {types : List TypeIdx} (h : ∀ i ∈ types, i < s.types.length) :
    ∃ range nodes, copySeq types s = some (range, withTypes s nodes) ∧
      types.map (s.types[·]?) = nodes.map some ∧ range.Within (s.types.length + nodes.length) ∧
      range.toList = List.range' s.types.length nodes.length := by
  obtain ⟨seq, nodes, hrun, hnodes, hnext, hlist⟩ := copyAll_eq types .empty s (.inl rfl) h
  refine ⟨seq.finish, nodes, ?_, hnodes, hnext.within, hlist⟩
  show (types.foldlM copySlot SeqBuilder.empty s).bind (fun r => some (r.1.finish, r.2)) = _
  rw [hrun]
  rfl

/-- What a scan finds is a node of the table that fits. -/
theorem scan_eq_some {s : Storage} {fits : TypeNode → Bool} {idx : TypeIdx}
    (h : scan s fits = some idx) : ∃ node, s.types[idx]? = some node ∧ fits node = true := by
  unfold scan at h
  obtain ⟨i, hi, rfl⟩ := Option.map_eq_some_iff.1 h
  obtain ⟨hlt, hfits, -⟩ := List.findIdx?_eq_some_iff_getElem.1 hi
  refine ⟨_, ?_, hfits⟩
  rw [← List.getElem?_eq_getElem hlt, List.getElem?_drop, Nat.add_comm]

end StorageBuilder

end Alcy.Ir
