import Alcy.Codegen.TypeIndexes
import Alcy.Lib.Unfold

/-! # The lowering of machine types

Machine types are built from scalars, pointers and references by structs and arrays. `type` has a
case for each of their tags but the unsigned integers, which `isIntegerType` accepts as well, so a
type that holds one ends the emission, and so does an immediate of such a type.
-/
namespace Alcy.Codegen

open Alcy.Ir Alcy.Lib Alcy.Lib.Unfold

/-- The LLVM type of a scalar tag. Signed and unsigned integers of one width are one LLVM type. -/
def scalarShape : TypeTag → Option LlvmType
  | .i1 => some (.int 1)
  | .i8 | .u8 => some (.int 8)
  | .i16 | .u16 => some (.int 16)
  | .i32 | .u32 => some (.int 32)
  | .i64 | .u64 => some (.int 64)
  | .f32 => some .float
  | .f64 => some .double
  | .ptr | .ref | .mutRef => some .ptr
  | _ => none

/-- The entry `idx` is a machine type, and `ty` is the LLVM type of its shape. -/
inductive MachineType (s : Storage) : TypeIdx → LlvmType → Prop
  | scalar {idx : TypeIdx} {node : TypeNode} {ty : LlvmType} (h : s.types[idx]? = some node)
      (hty : scalarShape node.tag = some ty) : MachineType s idx ty
  | struct {idx data : Nat} {c : StructType} {tys : List LlvmType}
      (h : s.types[idx]? = some ⟨.struct, data⟩) (hc : s.structTypes[data]? = some c)
      (hlen : c.fields.toList.length = tys.length)
      (hf : ∀ (j : Nat) t ty, c.fields.toList[j]? = some t → tys[j]? = some ty →
        MachineType s t ty) :
      MachineType s idx (.struct tys)
  | array {idx data : Nat} {c : ArrayType} {ty : LlvmType}
      (h : s.types[idx]? = some ⟨.array, data⟩) (hc : s.arrayTypes[data]? = some c)
      (he : MachineType s c.element ty) : MachineType s idx (.array ty c.count)

def isUnsignedIntegerType : TypeTag → Bool
  | .u8 | .u16 | .u32 | .u64 => true
  | _ => false

/-- `type(idx)` comes to an unsigned integer. -/
def ReadsUnsigned (s : Storage) (idx : TypeIdx) : Prop :=
  ∃ j node, TypeReads s idx j ∧ s.types[j]? = some node ∧ isUnsignedIntegerType node.tag = true

variable {s : Storage} {idx : TypeIdx} {ty ty' : LlvmType}

theorem MachineType.unique (h : MachineType s idx ty) (h' : MachineType s idx ty') : ty = ty' := by
  induction h generalizing ty' with
  | @scalar idx node ty h hty =>
    cases h' with
    | scalar h' hty' =>
      obtain rfl := Option.some.inj (h.symm.trans h')
      exact Option.some.inj (hty.symm.trans hty')
    | struct h' =>
      obtain rfl := Option.some.inj (h.symm.trans h')
      cases hty
    | array h' =>
      obtain rfl := Option.some.inj (h.symm.trans h')
      cases hty
  | @struct idx data c tys h hc hlen hf ih =>
    cases h' with
    | scalar h' hty' =>
      obtain rfl := Option.some.inj (h.symm.trans h')
      cases hty'
    | @struct _ data' c' tys' h' hc' hlen' hf' =>
      obtain rfl : data = data' := by simpa using h.symm.trans h'
      obtain rfl := Option.some.inj (hc.symm.trans hc')
      congr 1
      refine List.ext_getElem (hlen.symm.trans hlen') fun j hj hj' => ?_
      have hj'' : j < c.fields.toList.length := by omega
      exact ih j _ _ (List.getElem?_eq_getElem hj'') (List.getElem?_eq_getElem hj)
        (hf' j _ _ (List.getElem?_eq_getElem hj'') (List.getElem?_eq_getElem hj'))
    | array h' => exact absurd (h.symm.trans h') (by simp)
  | @array idx data c ty h hc he ih =>
    cases h' with
    | scalar h' hty' =>
      obtain rfl := Option.some.inj (h.symm.trans h')
      cases hty'
    | struct h' => exact absurd (h.symm.trans h') (by simp)
    | @array _ data' c' ty' h' hc' he' =>
      obtain rfl : data = data' := by simpa using h.symm.trans h'
      obtain rfl := Option.some.inj (hc.symm.trans hc')
      rw [ih he']

/-! ## Types that hold an unsigned integer -/

theorem lowerType_struct {data : Nat} {c : StructType} (h : s.types[idx]? = some ⟨.struct, data⟩)
    (hc : s.structTypes[data]? = some c) (fuel : Nat) : lowerType s (fuel + 1) idx =
      (c.fields.toList.mapM (lowerType s fuel)).map LlvmType.struct := by
  simp only [lowerType, h, hc, Option.bind_eq_bind, Option.bind_some]
  cases c.fields.toList.mapM (lowerType s fuel) <;> rfl

theorem lowerType_array {data : Nat} {c : ArrayType} (h : s.types[idx]? = some ⟨.array, data⟩)
    (hc : s.arrayTypes[data]? = some c) (fuel : Nat) : lowerType s (fuel + 1) idx =
      (lowerType s fuel c.element).map fun ty => .array ty c.count := by
  simp only [lowerType, h, hc, Option.bind_eq_bind, Option.bind_some]
  cases lowerType s fuel c.element <;> rfl

/-- The lowering ends at an unsigned integer, wherever it comes to it. -/
theorem lowerType_readsUnsigned (h : ReadsUnsigned s idx) (fuel : Nat) :
    lowerType s fuel idx = none := by
  obtain ⟨j, node, hreads, hnode, hunsigned⟩ := h
  induction hreads generalizing fuel with
  | self idx =>
    cases fuel with
    | zero => rfl
    | succ fuel =>
      obtain ⟨tag, data⟩ := node
      cases tag <;> simp only [isUnsignedIntegerType, Bool.false_eq_true] at hunsigned <;>
        simp [lowerType, hnode]
  | @struct idx j t data c h hc ht hr ih =>
    cases fuel with
    | zero => rfl
    | succ fuel =>
      rw [lowerType_struct h hc, Option.map_eq_none_iff, ← Option.not_isSome_iff_eq_none,
        mapM_isSome]
      intro hall
      have hfield := hall t ht
      rw [ih fuel hnode] at hfield
      cases hfield
  | @array idx j data c h hc hr ih =>
    cases fuel with
    | zero => rfl
    | succ fuel => rw [lowerType_array h hc, ih fuel hnode, Option.map_none]

/-! ## Types that hold none -/

/-- The entries that `type` goes on to. -/
def composed (s : Storage) (idx : TypeIdx) : Option (List TypeIdx) :=
  s.types[idx]?.map fun node =>
    match node.tag with
    | .struct => s.structTypes[node.data]?.elim [] fun c => c.fields.toList
    | .array => s.arrayTypes[node.data]?.elim [] fun c => [c.element]
    | _ => []

theorem composed_isSome {node : TypeNode} (h : s.types[idx]? = some node) :
    (composed s idx).isSome = true := by
  simp [composed, h]

/-- The fuel that `type` takes. -/
theorem enough_types (s : Storage) : Enough (composed s) (s.types.length + 1) [] := by
  have hall : ∀ idx, (composed s idx).isSome = true → idx ∈ List.range s.types.length := by
    intro idx h
    rw [composed, Option.isSome_map] at h
    simpa using h
  exact Enough.start hall (by simp)

theorem lowerType_scalar {node : TypeNode} (h : s.types[idx]? = some node)
    (hty : scalarShape node.tag = some ty) (hsigned : isUnsignedIntegerType node.tag = false)
    (fuel : Nat) : lowerType s (fuel + 1) idx = some ty := by
  obtain ⟨tag, data⟩ := node
  cases tag <;> simp only [scalarShape, isUnsignedIntegerType, reduceCtorEq, Option.some.injEq]
    at hty hsigned <;> simp [lowerType, h, hty]

theorem sizeOf_field {tys : List LlvmType} {j : Nat} (h : tys[j]? = some ty) :
    sizeOf ty < sizeOf (LlvmType.struct tys) := by
  have hlt := List.sizeOf_lt_of_mem (List.mem_of_getElem? h)
  simp only [LlvmType.struct.sizeOf_spec]
  omega

theorem sizeOf_element (count : Nat) : sizeOf ty < sizeOf (LlvmType.array ty count) := by
  simp only [LlvmType.array.sizeOf_spec]
  omega

/-- Everything on a path is of a larger shape. -/
def Above (s : Storage) (path : List TypeIdx) (ty : LlvmType) : Prop :=
  ∀ p ∈ path, ∃ above, MachineType s p above ∧ sizeOf ty < sizeOf above

theorem Above.notMem {path : List TypeIdx} (h : Above s path ty) (hty : MachineType s idx ty) :
    idx ∉ path := by
  intro hmem
  obtain ⟨above, habove, hlt⟩ := h idx hmem
  rw [habove.unique hty] at hlt
  exact Nat.lt_irrefl _ hlt

theorem Above.step {path : List TypeIdx} (h : Above s path ty) (hty : MachineType s idx ty)
    (hlt : sizeOf ty' < sizeOf ty) : Above s (path ++ [idx]) ty' := by
  intro p hp
  rcases List.mem_append.mp hp with hp | hp
  · obtain ⟨above, habove, hlt'⟩ := h p hp
    exact ⟨above, habove, Nat.lt_trans hlt hlt'⟩
  · rw [List.mem_singleton.mp hp]
    exact ⟨ty, hty, hlt⟩

/-- No entry stands twice on a path, since the shapes shrink, so the fuel lasts. -/
theorem lowerType_machine {n : Nat} {path : List TypeIdx} (h : MachineType s idx ty)
    (hsigned : ¬ ReadsUnsigned s idx) (henough : Enough (composed s) n path)
    (habove : Above s path ty) : lowerType s n idx = some ty := by
  induction h generalizing n path with
  | @scalar idx node ty h hty =>
    obtain ⟨n, rfl⟩ := Nat.exists_eq_add_one.mpr henough.pos
    refine lowerType_scalar h hty ?_ n
    exact Bool.eq_false_iff.mpr fun hunsigned => hsigned ⟨idx, node, .self idx, h, hunsigned⟩
  | @struct idx data c tys h hc hlen hf ih =>
    obtain ⟨n, rfl⟩ := Nat.exists_eq_add_one.mpr henough.pos
    have hty : MachineType s idx (.struct tys) := .struct h hc hlen hf
    have hstep := henough.step (habove.notMem hty) (composed_isSome h)
    have hfields : c.fields.toList.mapM (lowerType s n) = some tys := by
      rw [mapM_eq_some, List.forall₂_iff_get]
      refine ⟨hlen, fun j hj hj' => ?_⟩
      have hfield := List.getElem?_eq_getElem hj
      have hshape := List.getElem?_eq_getElem hj'
      refine ih j _ _ hfield hshape ?_ hstep (habove.step hty (sizeOf_field hshape))
      intro ⟨k, node, hreads, hnode, hunsigned⟩
      exact hsigned ⟨k, node, .struct h hc (List.getElem_mem hj) hreads, hnode, hunsigned⟩
    rw [lowerType_struct h hc, hfields, Option.map_some]
  | @array idx data c ty h hc he ih =>
    obtain ⟨n, rfl⟩ := Nat.exists_eq_add_one.mpr henough.pos
    have hty : MachineType s idx (.array ty c.count) := .array h hc he
    have hstep := henough.step (habove.notMem hty) (composed_isSome h)
    have helement : lowerType s n c.element = some ty := by
      refine ih ?_ hstep (habove.step hty (sizeOf_element c.count))
      intro ⟨k, node, hreads, hnode, hunsigned⟩
      exact hsigned ⟨k, node, .array h hc hreads, hnode, hunsigned⟩
    rw [lowerType_array h hc, helement, Option.map_some]

/-- A machine type is lowered to its shape unless it holds an unsigned integer. -/
theorem type_machine_iff (h : MachineType s idx ty) (st : LlvmIrStorage) :
    type s idx st = ⟨[], some (ty, st)⟩ ↔ ¬ ReadsUnsigned s idx := by
  constructor
  · intro hlowered hunsigned
    rw [type, lowerType_readsUnsigned hunsigned] at hlowered
    cases hlowered
  · intro hsigned
    rw [type, lowerType_machine h hsigned (enough_types s) nofun]
    rfl

/-! ## Immediates -/

variable {st : LlvmIrStorage} {imm : Immutable} {node : TypeNode}

theorem readsUnsigned_of_tag (h : s.types[idx]? = some node)
    (hunsigned : isUnsignedIntegerType node.tag = true) : ReadsUnsigned s idx :=
  ⟨idx, node, .self idx, h, hunsigned⟩

theorem not_readsUnsigned (h : s.types[idx]? = some node) (hint : isIntegerType node.tag = true)
    (hsigned : isUnsignedIntegerType node.tag = false) : ¬ ReadsUnsigned s idx := by
  intro ⟨j, node', hreads, hnode', hunsigned⟩
  cases hreads with
  | self =>
    obtain rfl := Option.some.inj (h.symm.trans hnode')
    rw [hsigned] at hunsigned
    cases hunsigned
  | struct h' =>
    obtain rfl := Option.some.inj (h.symm.trans h')
    cases hint
  | array h' =>
    obtain rfl := Option.some.inj (h.symm.trans h')
    cases hint

theorem integer_shape {tag : TypeTag} (h : isIntegerType tag = true) (imm : Immutable) :
    ∃ ty value, scalarShape tag = some ty ∧ imm.asU64Integer tag = some value := by
  cases tag <;> simp only [isIntegerType, Bool.false_eq_true] at h <;>
    exact ⟨_, _, rfl, rfl⟩

/-- The immediate gets a constant of its type's shape, and its entry in the map. -/
def Handled (s : Storage) (st : LlvmIrStorage) (idx : ImmutableIdx) (imm : Immutable)
    (tag : TypeTag) : Prop :=
  ∃ ty value, scalarShape tag = some ty ∧ imm.asU64Integer tag = some value ∧
    setupImmutable s idx st =
      ⟨[.addImmutable idx (.int ty value (isSignedIntegerType tag))],
        some ((), { st with immutables := st.immutables.set idx (some (.immutable idx)) })⟩

theorem handled_iff (himm : s.immutables[idx]? = some imm) (hnode : s.types[imm.type]? = some node)
    (hint : isIntegerType node.tag = true) (hidx : idx < st.immutables.length) :
    Handled s st idx imm node.tag ↔ isUnsignedIntegerType node.tag = false := by
  have hsetup : setupImmutable s idx = (constant s imm node.tag >>= addImmutable idx) := by
    simp only [setupImmutable, fetch, himm, hnode, pure_bind]
  constructor
  · intro ⟨ty, value, _, _, hrun⟩
    refine Bool.eq_false_iff.mpr fun hunsigned => ?_
    have hstop : type s imm.type = Traced.stop := by
      rw [type, lowerType_readsUnsigned (readsUnsigned_of_tag hnode hunsigned)]
      rfl
    rw [hsetup, constant, if_pos hint, hstop, Traced.stop_bind, Traced.stop_bind] at hrun
    cases hrun
  · intro hsigned
    obtain ⟨ty, value, hty, hvalue⟩ := integer_shape hint imm
    refine ⟨ty, value, hty, hvalue, ?_⟩
    have htype : type s imm.type = pure ty := by
      rw [type, lowerType_machine (.scalar hnode hty) (not_readsUnsigned hnode hint hsigned)
        (enough_types s) nofun]
      rfl
    have hconstant : constant s imm node.tag =
        pure (.int ty value (isSignedIntegerType node.tag)) := by
      rw [constant, if_pos hint, htype, hvalue, pure_bind]
      rfl
    rw [hsetup, hconstant, pure_bind]
    simp [addImmutable, Traced.bind_def, Traced.get, Traced.resume, Traced.tell, Traced.modify,
      fetch, hidx]

/-- **Machine types.** A machine type is lowered to its shape exactly when it holds no unsigned
integer, and an integer immediate is set up exactly when its type is not one. -/
theorem machineTypes_lower_iff (s : Storage) :
    (∀ idx ty, MachineType s idx ty → ∀ st,
      (type s idx st = ⟨[], some (ty, st)⟩ ↔ ¬ ReadsUnsigned s idx)) ∧
    ∀ idx imm node, s.immutables[idx]? = some imm → s.types[imm.type]? = some node →
      isIntegerType node.tag = true → ∀ st : LlvmIrStorage, idx < st.immutables.length →
      (Handled s st idx imm node.tag ↔ isUnsignedIntegerType node.tag = false) :=
  ⟨fun _ _ h st => type_machine_iff h st,
    fun _ _ _ himm hnode hint _ hidx => handled_iff himm hnode hint hidx⟩

/-- A function that returns the immediate 7 of an integer type. -/
def returnsSeven (tag : TypeTag) : Storage where
  functions := [⟨⟨primitiveIdx tag, ⟨0, 0⟩, 0⟩, ⟨0, 1⟩⟩]
  blocks := [⟨⟨0, 1⟩, ⟨0, 0⟩⟩]
  blockParams := []
  instrs := [⟨.ret, .add, none, ⟨0, 1⟩⟩]
  immutables := [⟨primitiveIdx tag, 7⟩]
  registers := []
  externalFunctions := []
  operands := [⟨.immutable 0, primitiveIdx tag⟩]
  types := internPrimitives ++ [⟨.array, 0⟩]
  structTypes := []
  arrayTypes := [⟨primitiveIdx tag, 4⟩]
  enumTypes := []
  enumVariantTypes := []
  refTypes := []
  tupleTypes := []

theorem returnsSeven_array :
    MachineType (returnsSeven .i32) 17 (.array (.int 32) 4) :=
  .array (c := ⟨primitiveIdx .i32, 4⟩) rfl rfl (.scalar rfl rfl)

/-- An array of signed integers, and a signed immediate. -/
theorem returnsSeven_signed :
    ¬ ReadsUnsigned (returnsSeven .i32) 17 ∧
    Handled (returnsSeven .i32) (sized (returnsSeven .i32)) 0 ⟨primitiveIdx .i32, 7⟩ .i32 :=
  ⟨((machineTypes_lower_iff _).1 _ _ returnsSeven_array (sized (returnsSeven .i32))).mp rfl,
    ((machineTypes_lower_iff (returnsSeven .i32)).2 0 _ ⟨.i32, 0⟩ rfl rfl rfl _ (by decide)).mpr
      rfl⟩

/-- An array of unsigned bytes is a machine type that `type` does not lower, and the accepted
function that returns an unsigned byte is never emitted. -/
theorem returnsSeven_unsigned :
    MachineType (returnsSeven .u8) 17 (.array (.int 8) 4) ∧
    (type (returnsSeven .u8) 17 (sized (returnsSeven .u8))).result = none ∧
    verifyStorage (returnsSeven .u8) = .ok () ∧
    (emit (returnsSeven .u8) (sized (returnsSeven .u8))).result = none :=
  ⟨.array (c := ⟨primitiveIdx .u8, 4⟩) rfl rfl (.scalar rfl rfl), rfl, by decide, rfl⟩

end Alcy.Codegen
