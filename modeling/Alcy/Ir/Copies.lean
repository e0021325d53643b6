import Alcy.Ir.Builder

/-! # Copyable types

`is_copy_type` against what a type owns. The guide for values makes copyability structural: a value
is copied unless it owns an exclusive reference, at whatever depth. A reference is owned, what it
points to is not.
-/
namespace Alcy.Ir.Storage
open Relation (ReflTransGen TransGen)

variable (s : Storage)

/-- The type is in the table, under the tag. -/
def HasTag (idx : TypeIdx) (tag : TypeTag) : Prop :=
  ∃ node, s.types[idx]? = some node ∧ node.tag = tag

/-- An exclusive reference is a value of the type, or is contained in one. -/
def OwnsExclusive (idx : TypeIdx) : Prop :=
  ∃ part, ReflTransGen s.Holds idx part ∧ s.HasTag part .mutRef

/-- Nothing that a value of the type contains is read out of its table. -/
def InTables (idx : TypeIdx) : Prop :=
  ∀ part, ReflTransGen s.Holds idx part → (s.valueParts part).isSome = true

variable {s : Storage} {n : Nat} {idx : TypeIdx}

/-- One call, taken apart. -/
theorem isCopyType_succ {copy : Bool} (h : s.isCopyType (n + 1) idx = some copy) :
    (s.HasTag idx .mutRef ∧ copy = false) ∨ (¬ s.HasTag idx .mutRef ∧ ∃ parts,
      s.valueParts idx = some parts ∧ parts.allM (s.isCopyType n) = some copy) := by
  obtain ⟨node, hnode, h⟩ := Option.bind_eq_some_iff.1 h
  split at h
  · next htag => exact .inl ⟨⟨node, hnode, htag⟩, (Option.some.inj h).symm⟩
  · next htag =>
    obtain ⟨parts, hparts, h⟩ := Option.bind_eq_some_iff.1 h
    refine .inr ⟨?_, parts, by rw [valueParts, hnode, Option.bind_some, hparts], h⟩
    rintro ⟨node', hnode', htag'⟩
    cases hnode.symm.trans hnode'
    exact htag htag'

/-- A type that is copied owns no exclusive reference. -/
theorem isCopyType_true (h : s.isCopyType n idx = some true) : ¬ s.OwnsExclusive idx := by
  induction n generalizing idx with
  | zero => cases h
  | succ n ih =>
    rintro ⟨part, hreach, htag⟩
    rcases isCopyType_succ h with ⟨-, h⟩ | ⟨hnot, parts, hparts, hall⟩
    · cases h
    · rcases ReflTransGen.cases_head hreach with rfl | ⟨first, ⟨parts', hparts', hmem⟩, hreach⟩
      · exact hnot htag
      · cases hparts.symm.trans hparts'
        exact ih (Lib.Cycle.allM_eq_true hall first hmem) ⟨part, hreach, htag⟩

/-- A type that is moved owns one. -/
theorem isCopyType_false (h : s.isCopyType n idx = some false) : s.OwnsExclusive idx := by
  induction n generalizing idx with
  | zero => cases h
  | succ n ih =>
    rcases isCopyType_succ h with ⟨htag, -⟩ | ⟨-, parts, hparts, hall⟩
    · exact ⟨idx, .refl, htag⟩
    · obtain ⟨first, hmem, hfirst⟩ := Lib.Cycle.allM_eq_false hall
      obtain ⟨part, hreach, htag⟩ := ih hfirst
      exact ⟨part, .head ⟨parts, hparts, hmem⟩ hreach, htag⟩

/-- The answer is the node's, wherever it stands in the table. -/
theorem isCopyType_slot {slot : TypeIdx} (h : s.types[slot]? = s.types[idx]?) :
    s.isCopyType n slot = s.isCopyType n idx := by
  cases n with
  | zero => rfl
  | succ n => rw [isCopyType, isCopyType, h]

/-- **Copy is the absence of owned exclusive references**: without a cycle of containment the
question is answered, the answer is whether none is reached by value, and every slot with the same
node has it. -/
theorem isCopyType_iff (hacyc : ∀ i, ¬ TransGen s.Holds i i) (htables : s.InTables idx) :
    ∃ copy, s.isCopyType (s.types.length + 1) idx = some copy ∧
      (copy = true ↔ ¬ s.OwnsExclusive idx) ∧
      ∀ slot, s.types[slot]? = s.types[idx]? →
        s.isCopyType (s.types.length + 1) slot = some copy := by
  have hanswered : (s.isCopyType (s.types.length + 1) idx).isSome = true :=
    isCopyType_of_unfold ((Lib.Unfold.unfold_isSome s.enough_depth).2 fun part hreach =>
      ⟨htables part hreach, List.not_mem_nil, hacyc part⟩)
  obtain ⟨copy, hcopy⟩ := Option.isSome_iff_exists.1 hanswered
  refine ⟨copy, hcopy, ?_, fun slot hslot => (isCopyType_slot hslot).trans hcopy⟩
  cases copy with
  | true => exact ⟨fun _ => isCopyType_true hcopy, fun _ => rfl⟩
  | false => exact ⟨nofun, fun hnone => absurd (isCopyType_false hcopy) hnone⟩

/-- A table whose rows name earlier types only. -/
theorem acyclic_of_down (h : ∀ i < s.types.length, ∀ parts, s.valueParts i = some parts →
    ∀ part ∈ parts, part < i) (i : TypeIdx) : ¬ TransGen s.Holds i i := by
  have hdown {i j : TypeIdx} (hstep : s.Holds i j) : j < i := by
    obtain ⟨parts, hparts, hmem⟩ := hstep
    obtain ⟨node, hnode, -⟩ := Option.bind_eq_some_iff.1 hparts
    exact h i (List.getElem?_eq_some_iff.1 hnode).1 parts hparts j hmem
  have htrans {i j : TypeIdx} (hreach : TransGen s.Holds i j) : j < i := by
    induction hreach with
    | single hstep => exact hdown hstep
    | tail _ hstep ih => exact Nat.lt_trans (hdown hstep) ih
  exact fun hcyc => Nat.lt_irrefl _ (htrans hcyc)

/-- The types of `&mut i32`, of the tuple `(fn, &mut i32)`, and of an array of such tuples. -/
def exclusiveTuple : Storage :=
  { Storage.initial with
    types := internPrimitives ++ [⟨.mutRef, 0⟩, ⟨.tuple, 0⟩, ⟨.array, 0⟩]
    refTypes := [⟨primitiveIdx .i32⟩]
    tupleTypes := [⟨⟨16, 2⟩⟩]
    arrayTypes := [⟨18, 4⟩] }

theorem exclusiveTuple_down : ∀ i < exclusiveTuple.types.length, ∀ parts,
    exclusiveTuple.valueParts i = some parts → ∀ part ∈ parts, part < i := by
  have hparts : ∀ i < exclusiveTuple.types.length,
      (exclusiveTuple.valueParts i).all (fun parts => parts.all (· < i)) = true := by decide
  intro i hi parts h part hmem
  have hall := hparts i hi
  rw [h] at hall
  simpa using List.all_eq_true.1 hall part hmem

/-- An array of tuples with an exclusive reference is moved. -/
theorem exclusiveTuple_moved : exclusiveTuple.OwnsExclusive 19 ∧ ∃ copy,
    exclusiveTuple.isCopyType 21 19 = some copy ∧
      (copy = true ↔ ¬ exclusiveTuple.OwnsExclusive 19) ∧
      ∀ slot, exclusiveTuple.types[slot]? = exclusiveTuple.types[19]? →
        exclusiveTuple.isCopyType 21 slot = some copy := by
  refine ⟨isCopyType_false (n := 21) (by decide), isCopyType_iff
    (acyclic_of_down exclusiveTuple_down) fun part hreach => ?_⟩
  -- whatever is reached lies in the table, and every row of the table is there
  have hrows : ∀ i < exclusiveTuple.types.length, (exclusiveTuple.valueParts i).isSome = true := by
    decide
  have hlt : part ≤ 19 := by
    induction hreach with
    | refl => exact Nat.le_refl _
    | @tail i j _ hstep ih =>
      obtain ⟨parts, hparts, hmem⟩ := hstep
      have hlt : i < exclusiveTuple.types.length := Nat.lt_succ_of_le ih
      exact Nat.le_trans (Nat.le_of_lt (exclusiveTuple_down i hlt parts hparts j hmem)) ih
  exact hrows part (Nat.lt_succ_of_le hlt)

end Alcy.Ir.Storage
