import Alcy.Codegen.Emitter
import Alcy.Ir.Accepted

/-! # Type indexes of an accepted storage

Where a storage keeps a type index, and which of these places the verifier never looks at: the
signatures of external functions, the pointees of references, and entries that nothing it visits
refers to. The emitter lowers the signature of every external function, so an index out of range
there is read.
-/
namespace Alcy.Codegen

open Alcy.Ir Alcy.Lib.Guards

/-- The type indexes of a signature. -/
def MentionsType (m : FunctionMeta) (t : TypeIdx) : Prop :=
  t = m.returnType ∨ t ∈ m.paramTypes.toList

/-- `t` is stored somewhere in the storage. -/
inductive StoredType (s : Storage) : TypeIdx → Prop
  | register {r : Register} (h : r ∈ s.registers) : StoredType s r.type
  | immutable {i : Immutable} (h : i ∈ s.immutables) : StoredType s i.type
  | operand {o : Operand} (h : o ∈ s.operands) : StoredType s o.type
  | blockParam {p : BlockParam} (h : p ∈ s.blockParams) : StoredType s p.type
  | function {f : Function} {t : TypeIdx} (h : f ∈ s.functions)
      (ht : MentionsType f.functionMeta t) : StoredType s t
  | externalFunction {f : ExternalFunction} {t : TypeIdx} (h : f ∈ s.externalFunctions)
      (ht : MentionsType f.functionMeta t) : StoredType s t
  | structField {c : StructType} {t : TypeIdx} (h : c ∈ s.structTypes)
      (ht : t ∈ c.fields.toList) : StoredType s t
  | enumPayload {c : EnumVariantType} {t : TypeIdx} (h : c ∈ s.enumVariantTypes)
      (ht : t ∈ c.fields.toList) : StoredType s t
  | tupleElement {c : TupleType} {t : TypeIdx} (h : c ∈ s.tupleTypes)
      (ht : t ∈ c.elements.toList) : StoredType s t
  | arrayElement {c : ArrayType} (h : c ∈ s.arrayTypes) : StoredType s c.element
  | pointee {c : RefType} (h : c ∈ s.refTypes) : StoredType s c.pointee

/-- An instruction of a block has the operand position `o`. -/
def VisitedOperand (s : Storage) (o : OperandIdx) : Prop :=
  ∃ block ∈ s.blocks, ∃ i ∈ block.instrs.toList, ∃ instr, s.instrs[i]? = some instr ∧
    o ∈ instr.operands.toList

def VisitedParam (s : Storage) (p : BlockParamIdx) : Prop :=
  ∃ block ∈ s.blocks, p ∈ block.blockParams.toList

/-- An enum of the type table has the variant. -/
def VisitedVariant (s : Storage) (v : EnumVariantTypeIdx) : Prop :=
  ∃ node ∈ s.types, node.tag = .enum ∧ ∃ e, s.enumTypes[node.data]? = some e ∧
    v ∈ e.variants.toList

/-- The type table has a node of the tag for the metadata entry. -/
def VisitedMetadata (s : Storage) (tag : TypeTag) (idx : Nat) : Prop := ⟨tag, idx⟩ ∈ s.types

/-- `t` is stored where the verifier does not look: in the signature of an external function, as a
pointee, or in an entry that is not reached from the type table or from a block. -/
inductive UncheckedType (s : Storage) : TypeIdx → Prop
  | externalFunction {f : ExternalFunction} {t : TypeIdx} (h : f ∈ s.externalFunctions)
      (ht : MentionsType f.functionMeta t) : UncheckedType s t
  | pointee {c : RefType} (h : c ∈ s.refTypes) : UncheckedType s c.pointee
  | operand {i : Nat} {o : Operand} (h : s.operands[i]? = some o) (hv : ¬ VisitedOperand s i) :
      UncheckedType s o.type
  | blockParam {i : Nat} {p : BlockParam} (h : s.blockParams[i]? = some p)
      (hv : ¬ VisitedParam s i) : UncheckedType s p.type
  | structField {i : Nat} {c : StructType} {t : TypeIdx} (h : s.structTypes[i]? = some c)
      (hv : ¬ VisitedMetadata s .struct i) (ht : t ∈ c.fields.toList) : UncheckedType s t
  | enumPayload {i : Nat} {c : EnumVariantType} {t : TypeIdx} (h : s.enumVariantTypes[i]? = some c)
      (hv : ¬ VisitedVariant s i) (ht : t ∈ c.fields.toList) : UncheckedType s t
  | tupleElement {i : Nat} {c : TupleType} {t : TypeIdx} (h : s.tupleTypes[i]? = some c)
      (hv : ¬ VisitedMetadata s .tuple i) (ht : t ∈ c.elements.toList) : UncheckedType s t
  | arrayElement {i : Nat} {c : ArrayType} (h : s.arrayTypes[i]? = some c)
      (hv : ¬ VisitedMetadata s .array i) : UncheckedType s c.element

/-- `LlvmIrEmitter::type(idx)` comes to read the entry `j` of the type table. -/
inductive TypeReads (s : Storage) : TypeIdx → TypeIdx → Prop
  | self (idx : TypeIdx) : TypeReads s idx idx
  | struct {idx j t i : TypeIdx} {c : StructType} (h : s.types[idx]? = some ⟨.struct, i⟩)
      (hc : s.structTypes[i]? = some c) (ht : t ∈ c.fields.toList) (hr : TypeReads s t j) :
      TypeReads s idx j
  | array {idx j i : TypeIdx} {c : ArrayType} (h : s.types[idx]? = some ⟨.array, i⟩)
      (hc : s.arrayTypes[i]? = some c) (hr : TypeReads s c.element j) : TypeReads s idx j

variable {s : Storage}

theorem stored_of_unchecked {t : TypeIdx} (h : UncheckedType s t) : StoredType s t := by
  cases h with
  | externalFunction h ht => exact .externalFunction h ht
  | pointee h => exact .pointee h
  | operand h => exact .operand (List.mem_of_getElem? h)
  | blockParam h => exact .blockParam (List.mem_of_getElem? h)
  | structField h _ ht => exact .structField (List.mem_of_getElem? h) ht
  | enumPayload h _ ht => exact .enumPayload (List.mem_of_getElem? h) ht
  | tupleElement h _ ht => exact .tupleElement (List.mem_of_getElem? h) ht
  | arrayElement h => exact .arrayElement (List.mem_of_getElem? h)

/-! ## What the verifier checks -/

theorem verified_node (hv : verifyStorage s = .ok ()) {node : TypeNode} (h : node ∈ s.types) :
    ∃ t, s.types[t]? = some node ∧ verifyType s t = .ok () := by
  obtain ⟨t, ht⟩ := List.mem_iff_getElem?.1 h
  exact ⟨t, ht, (verifyStorage_eq_ok.1 hv).1 t (List.getElem?_eq_some_iff.1 ht).1⟩

theorem verified_struct (hv : verifyStorage s = .ok ()) {i : Nat} {c : StructType} {t : TypeIdx}
    (hm : VisitedMetadata s .struct i) (hc : s.structTypes[i]? = some c)
    (ht : t ∈ c.fields.toList) : t < s.types.length := by
  obtain ⟨idx, hidx, hok⟩ := verified_node hv hm
  simp only [verifyType, bind_eq_ok, exists_unit, read_eq_ok, reject_eq_ok, hidx,
    Option.some.injEq, exists_eq_left', if_true, TypeNode.asStruct, payload, Except.ok.injEq,
    hc, rangeInBounds_iff, not_not] at hok
  exact lt_of_mem_range hok.2 ht

theorem verified_tuple (hv : verifyStorage s = .ok ()) {i : Nat} {c : TupleType} {t : TypeIdx}
    (hm : VisitedMetadata s .tuple i) (hc : s.tupleTypes[i]? = some c)
    (ht : t ∈ c.elements.toList) : t < s.types.length := by
  obtain ⟨idx, hidx, hok⟩ := verified_node hv hm
  simp only [verifyType, bind_eq_ok, exists_unit, read_eq_ok, reject_eq_ok, hidx,
    Option.some.injEq, exists_eq_left', if_true, if_false, reduceCtorEq, TypeNode.asTuple, payload,
    Except.ok.injEq, hc, rangeInBounds_iff, not_not] at hok
  exact lt_of_mem_range hok.2 ht

theorem verified_array (hv : verifyStorage s = .ok ()) {i : Nat} {c : ArrayType}
    (hm : VisitedMetadata s .array i) (hc : s.arrayTypes[i]? = some c) :
    c.element < s.types.length := by
  obtain ⟨idx, hidx, hok⟩ := verified_node hv hm
  simp only [verifyType, bind_eq_ok, exists_unit, read_eq_ok, reject_eq_ok, hidx,
    Option.some.injEq, exists_eq_left', if_true, if_false, reduceCtorEq, TypeNode.asArray, payload,
    Except.ok.injEq, hc, Nat.not_le] at hok
  exact hok.2

theorem verified_variant (hv : verifyStorage s = .ok ()) {i : Nat} {c : EnumVariantType}
    {t : TypeIdx} (hm : VisitedVariant s i) (hc : s.enumVariantTypes[i]? = some c)
    (ht : t ∈ c.fields.toList) : t < s.types.length := by
  obtain ⟨⟨_, data⟩, hnode, rfl, e, he, hi⟩ := hm
  obtain ⟨idx, hidx, hok⟩ := verified_node hv hnode
  simp only [verifyType, bind_eq_ok, exists_unit, read_eq_ok, reject_eq_ok, hidx,
    Option.some.injEq, exists_eq_left', if_true, if_false, reduceCtorEq, TypeNode.asEnum, payload,
    Except.ok.injEq, he, rangeInBounds_iff, not_not, forM_eq_ok] at hok
  have hvariant := hok.2.2 i hi
  simp only [verifyVariant, bind_eq_ok, read_eq_ok, reject_eq_ok, hc, Option.some.injEq,
    exists_eq_left', rangeInBounds_iff, not_not] at hvariant
  exact lt_of_mem_range hvariant ht

theorem verified_operand (hv : verifyStorage s = .ok ()) {i : Nat} {o : Operand}
    (hm : VisitedOperand s i) (ho : s.operands[i]? = some o) : o.type < s.types.length := by
  obtain ⟨block, hb, j, hj, instr, hinstr, hi⟩ := hm
  obtain ⟨b, hb⟩ := List.mem_iff_getElem?.1 hb
  obtain ⟨defined, instr', _, hinstr', _, _, hops, _⟩ := instr_of_accepted hv hb hj
  rw [hinstr, Option.some.injEq] at hinstr'
  subst hinstr'
  have hok := hops i hi
  simp only [verifyOperand, bind_eq_ok, exists_unit, read_eq_ok, reject_eq_ok, ho,
    Option.some.injEq, exists_eq_left', Nat.not_le] at hok
  exact hok.1

theorem verified_function (hv : verifyStorage s = .ok ()) {f : Function} {t : TypeIdx}
    (hf : f ∈ s.functions) (ht : MentionsType f.functionMeta t) : t < s.types.length := by
  obtain ⟨i, hi⟩ := List.mem_iff_getElem?.1 hf
  have hok := (verifyStorage_eq_ok.1 hv).2.2.2.1 i (List.getElem?_eq_some_iff.1 hi).1
  simp only [verifyFunction, bind_eq_ok, exists_unit, read_eq_ok, reject_eq_ok, hi,
    Option.some.injEq, exists_eq_left', Nat.not_le, forM_eq_ok] at hok
  rcases ht with rfl | ht
  exacts [hok.2.1, hok.2.2 t ht]

theorem verified_param (hv : verifyStorage s = .ok ()) {i : Nat} {p : BlockParam}
    (hm : VisitedParam s i) (hp : s.blockParams[i]? = some p) : p.type < s.types.length := by
  obtain ⟨block, hb, hi⟩ := hm
  obtain ⟨b, hb⟩ := List.mem_iff_getElem?.1 hb
  obtain ⟨defined, hfold, _⟩ := (verifyStorage_eq_ok.1 hv).2.2.2.2
  obtain ⟨d, d', hblock⟩ := foldlM_mem hfold b
    (List.mem_range.2 (List.getElem?_eq_some_iff.1 hb).1)
  simp only [defineBlock, bind_eq_ok, exists_unit, read_eq_ok, hb, Option.some.injEq,
    exists_eq_left'] at hblock
  obtain ⟨_, _, mid, hparams, _⟩ := hblock
  obtain ⟨e, e', hparam⟩ := foldlM_mem hparams i hi
  simp only [defineParam, bind_eq_ok, exists_unit, read_eq_ok, reject_eq_ok, hp, Option.some.injEq,
    exists_eq_left', Nat.not_le] at hparam
  exact hparam.1

/-- What the verifier looks at is in range. -/
theorem lt_of_checked (hv : verifyStorage s = .ok ())
    (hu : ∀ t, UncheckedType s t → t < s.types.length) {t : TypeIdx} (h : StoredType s t) :
    t < s.types.length := by
  cases h with
  | register h =>
    obtain ⟨i, hi⟩ := List.mem_iff_getElem?.1 h
    have hok := (verifyStorage_eq_ok.1 hv).2.1 i (List.getElem?_eq_some_iff.1 hi).1
    simpa [verifyRegister, hi] using hok
  | immutable h =>
    obtain ⟨i, hi⟩ := List.mem_iff_getElem?.1 h
    have hok := (verifyStorage_eq_ok.1 hv).2.2.1 i (List.getElem?_eq_some_iff.1 hi).1
    simpa [verifyImmutable, hi] using hok
  | operand h =>
    obtain ⟨i, hi⟩ := List.mem_iff_getElem?.1 h
    by_cases hm : VisitedOperand s i
    exacts [verified_operand hv hm hi, hu _ (.operand hi hm)]
  | blockParam h =>
    obtain ⟨i, hi⟩ := List.mem_iff_getElem?.1 h
    by_cases hm : VisitedParam s i
    exacts [verified_param hv hm hi, hu _ (.blockParam hi hm)]
  | function h ht => exact verified_function hv h ht
  | externalFunction h ht => exact hu _ (.externalFunction h ht)
  | structField h ht =>
    obtain ⟨i, hi⟩ := List.mem_iff_getElem?.1 h
    by_cases hm : VisitedMetadata s .struct i
    exacts [verified_struct hv hm hi ht, hu _ (.structField hi hm ht)]
  | enumPayload h ht =>
    obtain ⟨i, hi⟩ := List.mem_iff_getElem?.1 h
    by_cases hm : VisitedVariant s i
    exacts [verified_variant hv hm hi ht, hu _ (.enumPayload hi hm ht)]
  | tupleElement h ht =>
    obtain ⟨i, hi⟩ := List.mem_iff_getElem?.1 h
    by_cases hm : VisitedMetadata s .tuple i
    exacts [verified_tuple hv hm hi ht, hu _ (.tupleElement hi hm ht)]
  | arrayElement h =>
    obtain ⟨i, hi⟩ := List.mem_iff_getElem?.1 h
    by_cases hm : VisitedMetadata s .array i
    exacts [verified_array hv hm hi, hu _ (.arrayElement hi hm)]
  | pointee h => exact hu _ (.pointee h)

/-- Lowering an index in range reads entries in range, when every stored index is in range. -/
theorem lt_of_typeReads (hs : ∀ t, StoredType s t → t < s.types.length) {idx j : TypeIdx}
    (hr : TypeReads s idx j) (hidx : idx < s.types.length) : j < s.types.length := by
  induction hr with
  | self idx => exact hidx
  | struct _ hc ht _ ih => exact ih (hs _ (.structField (List.mem_of_getElem? hc) ht))
  | array _ hc _ ih => exact ih (hs _ (.arrayElement (List.mem_of_getElem? hc)))

/-- **Dangling type indexes.** An accepted storage has none, and the emitter reads none of its type
table, exactly when the places that the verifier leaves out have none. -/
theorem typeIndexes_iff (hv : verifyStorage s = .ok ()) :
    (∀ t, StoredType s t → t < s.types.length ∧ ∀ j, TypeReads s t j → j < s.types.length) ↔
      ∀ t, UncheckedType s t → t < s.types.length := by
  constructor
  · exact fun h t ht => (h t (stored_of_unchecked ht)).1
  · intro hu t ht
    have hlt := lt_of_checked hv hu ht
    exact ⟨hlt, fun j hr => lt_of_typeReads (fun _ => lt_of_checked hv hu) hr hlt⟩

/-- A storage of external functions that all return `result`. -/
def externalsReturning (results : List TypeIdx) : Storage where
  functions := []
  blocks := []
  blockParams := []
  instrs := []
  immutables := []
  registers := []
  externalFunctions := results.map fun result => ⟨⟨result, ⟨0, 0⟩, 0⟩⟩
  operands := []
  types := internPrimitives
  structTypes := []
  arrayTypes := []
  enumTypes := []
  enumVariantTypes := []
  refTypes := []
  tupleTypes := []

/-- An external function that returns `i32`. -/
theorem externalI32_typeIndexes : verifyStorage (externalsReturning [primitiveIdx .i32]) = .ok () ∧
    ∀ t, StoredType (externalsReturning [primitiveIdx .i32]) t →
      t < (externalsReturning [primitiveIdx .i32]).types.length := by
  refine ⟨by decide, fun t ht => ?_⟩
  refine (((typeIndexes_iff (by decide)).2 fun t hu => ?_) t ht).1
  cases hu with
  | externalFunction h ht =>
    obtain rfl := List.mem_singleton.1 h
    rcases ht with rfl | ht
    · decide
    · simp at ht
  | pointee h => exact nomatch h
  | operand h | blockParam h | structField h | enumPayload h | tupleElement h | arrayElement h =>
    simp [externalsReturning] at h

/-- The verifier accepts an external function whose return type does not exist. -/
theorem externalDangling_accepted : verifyStorage (externalsReturning [99]) = .ok () ∧
    StoredType (externalsReturning [99]) 99 ∧
    (externalsReturning [99]).types.length ≤ 99 ∧
    lowerType (externalsReturning [99]) 20 99 = none :=
  ⟨by decide, .externalFunction (List.mem_singleton_self _) (.inl rfl), by decide, rfl⟩

end Alcy.Codegen
