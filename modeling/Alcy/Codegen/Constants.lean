import Alcy.Codegen.Lookups
import Alcy.Codegen.Settled

/-! # The constants of the emitted module

The set-up makes one constant for each immediate (`constant_of_setup`), and it is the value that the
immediate has in the storage (`constantValue_immediate`).
-/
namespace Alcy.Codegen

open Alcy.Ir Alcy.Lib Alcy.Lib.Traced Alcy.Lib.Llvm

variable {s : Storage}

/-! ## Integer types -/

/-- The integer types that have a layout are laid out at their width. -/
theorem layout_integer {idx : TypeIdx} {tag : TypeTag} {ty : LlvmType}
    (htag : tagOf s idx = some tag) (hint : isIntegerType tag = true)
    (hty : layout s idx = some ty) : ty = .int (width tag) := by
  obtain ⟨node, hnode, rfl⟩ := Option.map_eq_some_iff.1 htag
  rw [layout, lowerType, hnode, Option.bind_eq_bind, Option.bind_some] at hty
  cases ht : node.tag <;> simp [ht, isIntegerType] at hty hint <;> simp [← hty, width]

theorem setWidth_signExtend {n m : Nat} (x : BitVec n) (h : n ≤ m) :
    (x.signExtend m).setWidth n = x := by
  ext i hi
  simp [BitVec.getLsbD_signExtend, hi]
  omega

/-- The 64 bits read from an immediate are its bits, extended. -/
theorem setWidth_asU64Integer {imm : Immutable} {tag : TypeTag} {value : BitVec 64}
    (h : imm.asU64Integer tag = some value) :
    value.setWidth (width tag) = imm.data.setWidth (width tag) := by
  unfold Immutable.asU64Integer at h
  split at h <;> cases h <;> simp [width, setWidth_signExtend]

/-! ## The set-up -/

/-- The constant of an immediate whose type has the tag. -/
def constantFor (s : Storage) (imm : Immutable) (tag : TypeTag) : Option Constant :=
  if isIntegerType tag then do
    let type ← layout s imm.type
    let value ← imm.asU64Integer tag
    some (.int type value (isSignedIntegerType tag))
  else if isFloatType tag then do some (.fp (← layout s imm.type) imm.data)
  else if tag = .str then some (.str imm.data)
  else none

theorem constant_eq (imm : Immutable) (tag : TypeTag) :
    constant s imm tag = orStop (constantFor s imm tag) := by
  unfold constant constantFor type layout
  split_ifs
  · cases lowerType s (s.types.length + 1) imm.type <;> cases imm.asU64Integer tag <;> rfl
  · cases lowerType s (s.types.length + 1) imm.type <;> rfl
  · rfl
  · rfl

/-- The constant that the set-up makes for the immediate. -/
def constantOf (s : Storage) (k : ImmutableIdx) : Option Constant := do
  let imm ← s.immutables[k]?
  constantFor s imm (← tagOf s imm.type)

/-- The constants that are logged. -/
theorem logs_setup : Logs (fun e => ∀ k c, e = Event.addImmutable k c → constantOf s k = some c)
    (setup s) := by
  refine .bind (.forM fun k _ => ?_) fun _ => .forM fun e _ => ?_
  · refine logs_fetch fun imm himm => logs_fetch fun node hnode => ?_
    rw [constant_eq]
    refine logs_orStop fun c hc => ?_
    refine Logs.get.bind fun st => logs_fetch fun _ _ => (Logs.tell ?_).bind fun _ => .modify _
    rintro _ _ ⟨⟩
    rw [constantOf, himm, Option.bind_eq_bind, Option.bind_some, tagOf, hnode]
    exact hc
  · refine logs_fetch fun func hfunc => ?_
    unfold createFunction
    simp only [bind_assoc, pure_bind]
    refine (Logs.mapM fun i _ => logs_type i).bind fun _ => (logs_type _).bind fun _ => ?_
    refine Logs.get.bind fun st => logs_fetch fun _ _ => (Logs.tell ?_).bind fun _ => .modify _
    intro _ _ h
    cases h

/-- A run that finishes, from its second part on. -/
theorem bind_finished {α β : Type} {m : EmitM α} {k : α → EmitM β} {st : LlvmIrStorage}
    (h : ((m >>= k) st).result.isSome = true) : ∃ a st₁, (k a st₁).result.isSome = true ∧
      (k a st₁).log ⊆ ((m >>= k) st).log := by
  rcases bind_cases (m := m) (k := k) st with ⟨_, hb⟩ | ⟨a, st₁, _, hb⟩ <;> rw [hb] at h ⊢
  · exact nomatch h
  · exact ⟨a, st₁, h, List.subset_append_right ..⟩

/-- An immediate that was set up has its constant in the log. -/
theorem setupImmutable_logs {k : ImmutableIdx} {st : LlvmIrStorage}
    (h : (setupImmutable s k st).result.isSome = true) :
    ∃ c, .addImmutable k c ∈ (setupImmutable s k st).log := by
  obtain ⟨imm, _, h₁, hs₁⟩ := bind_finished h
  obtain ⟨node, _, h₂, hs₂⟩ := bind_finished h₁
  obtain ⟨c, _, h₃, hs₃⟩ := bind_finished h₂
  obtain ⟨maps, _, h₄, hs₄⟩ := bind_finished h₃
  obtain ⟨old, _, h₅, hs₅⟩ := bind_finished h₄
  refine ⟨c, hs₁ (hs₂ (hs₃ (hs₄ (hs₅ ?_))))⟩
  exact List.mem_cons_self ..

theorem constant_of_setup {st : LlvmIrStorage} {u : Unit}
    (h : (setup s (sized s)).result = some (u, st)) {k : ImmutableIdx}
    (hk : k < s.immutables.length) : ∃ c, constantOf s k = some c ∧
      (setup s (sized s)).log.findSome? (constantAt k) = some c := by
  have hlogs := logs_setup (s := s) (sized s)
  have hmem : ∃ c, .addImmutable k c ∈ (setup s (sized s)).log := by
    unfold setup at h ⊢
    rcases bind_cases (m := (List.range s.immutables.length).forM (setupImmutable s))
      (k := fun _ => (List.range s.externalFunctions.length).forM (setupExternalFunction s))
      (sized s) with ⟨_, hb⟩ | ⟨u, st₁, hres, hb⟩ <;> rw [hb] at h ⊢
    · exact nomatch h
    · obtain ⟨start, -, hstage⟩ := exists_stages List.nodup_range hres
      obtain ⟨before, after, ho⟩ := List.append_of_mem (List.mem_range.2 hk)
      obtain ⟨-, ⟨_, _, hr, -⟩, hlogged⟩ := hstage before k after ho
      obtain ⟨c, hc⟩ := setupImmutable_logs (by rw [hr]; rfl)
      exact ⟨c, List.mem_append_left _ (hlogged _ hc)⟩
  obtain ⟨c, hc⟩ := hmem
  have hsome : ((setup s (sized s)).log.findSome? (constantAt k)).isSome = true := by
    rw [List.findSome?_isSome_iff]
    exact ⟨_, hc, by simp [constantAt]⟩
  obtain ⟨c', hc'⟩ := Option.isSome_iff_exists.1 hsome
  obtain ⟨e, he, hec⟩ := List.exists_of_findSome?_eq_some hc'
  refine ⟨c', ?_, hc'⟩
  cases e with
  | addImmutable k' c'' =>
    rw [constantAt] at hec
    split at hec
    · next hk' =>
      cases hec
      exact hlogs _ he k c' (by rw [hk'])
    · cases hec
  | _ => cases hec

/-! ## Values -/

variable {F P ω : Type} [DecidableEq P] {l : Llvm F P ω}

/-- **Constants keep their values.** -/
theorem constantValue_immediate (hl : l.Documented) {st : LlvmIrStorage} {u : Unit}
    (h : (setup s (sized s)).result = some (u, st)) {k : ImmutableIdx} {v : Val F P}
    (hv : immediate s (platform s l) k = some v) : constantValue s l (.immutable k) = some v := by
  unfold immediate at hv
  obtain ⟨imm, himm, hv⟩ := Option.bind_eq_some_iff.1 hv
  obtain ⟨tag, htag, hv⟩ := Option.bind_eq_some_iff.1 hv
  obtain ⟨c, hc, hfind⟩ := constant_of_setup h (List.getElem?_eq_some_iff.1 himm).1
  rw [constantValue, hfind, Option.bind_some]
  rw [constantOf, himm, Option.bind_eq_bind, Option.bind_some, htag, Option.bind_eq_bind,
    Option.bind_some, constantFor] at hc
  split at hv
  · next hint =>
    rw [if_pos hint] at hc
    obtain ⟨ty, hty, hc⟩ := Option.bind_eq_some_iff.1 hc
    obtain ⟨value, hvalue, hc⟩ := Option.bind_eq_some_iff.1 hc
    cases hc
    cases hv
    obtain rfl := layout_integer htag hint hty
    rw [hl.constantInt, setWidth_asU64Integer hvalue]
  · next hint =>
    rw [if_neg hint] at hc
    split at hv
    · next hfloat =>
      rw [if_pos hfloat] at hc
      obtain ⟨ty, hty, hc⟩ := Option.bind_eq_some_iff.1 hc
      obtain ⟨ty', hty', hv⟩ := Option.bind_eq_some_iff.1 hv
      cases hty.symm.trans hty'
      cases hc
      cases hv
      exact hl.constantFp ty imm.data
    · next hfloat =>
      rw [if_neg hfloat] at hc
      split at hv
      · next hstr =>
        rw [if_pos hstr] at hc
        cases hc
        cases hv
        exact hl.constantStr imm.data
      · cases hv

end Alcy.Codegen
