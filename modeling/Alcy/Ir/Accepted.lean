import Alcy.Ir.Verifier
import Alcy.Lib.Guards

/-! # What the verifier establishes

The registers an accepted storage defines, and where. A definition site is a place in a block: one
of its parameters, or one of its instructions with a destination. The verifier's vector `defined`
is compared with the list of the sites it has passed, and comes out with no register twice.
-/
namespace Alcy.Ir

open Alcy.Lib.Guards

@[simp] theorem reject_eq_ok {c : Prop} [Decidable c] {kind : VerifyErrorKind} {index : Nat} :
    reject c kind index = .ok () ↔ ¬ c := by
  unfold reject err
  split <;> simp [*]

@[simp] theorem read_eq_ok {α : Type} {table : List α} {idx : Nat} {a : α} :
    read table idx = .ok a ↔ table[idx]? = some a := by
  unfold read
  split <;> simp [*]

@[simp] theorem rangeInBounds_iff {range : IdxRange} {vecSize : Nat} :
    rangeInBounds range vecSize = true ↔ range.head + range.size ≤ vecSize := by
  simp [rangeInBounds]

/-- The positions of a range that is in bounds are positions of the table. -/
theorem lt_of_mem_range {range : IdxRange} {n i : Nat} (h : range.head + range.size ≤ n)
    (hi : i ∈ range.toList) : i < n := by
  rw [IdxRange.mem_toList] at hi
  omega

/-! ## Definition sites -/

/-- A place in a block where a register may be defined. -/
inductive Site where
  | param (block : BlockIdx) (idx : BlockParamIdx)
  | instr (block : BlockIdx) (idx : InstructionIdx)
  deriving DecidableEq

def Site.block : Site → BlockIdx
  | .param b _ | .instr b _ => b

namespace Storage

variable (s : Storage)

def definition : Site → Option RegisterIdx
  | .param _ pidx => s.blockParams[pidx]?.map BlockParam.reg
  | .instr _ iidx => s.instrs[iidx]?.bind Instruction.dst

/-- The sites of a block, parameters first. -/
def blockSites (bidx : BlockIdx) : List Site :=
  (s.blocks[bidx]?.elim [] fun block =>
    block.blockParams.toList.map (.param bidx) ++ block.instrs.toList.map (.instr bidx))

/-- The sites of every block, whether a function lists it or not. -/
def sites : List Site := (List.range s.blocks.length).flatMap s.blockSites

/-- `d` is the one place where `r` is defined. -/
def SoleDefinition (r : RegisterIdx) (d : Site) : Prop :=
  ∀ e, e ∈ s.sites ∧ s.definition e = some r ↔ e = d

variable {s}

theorem mem_sites_param {b p : Nat} {block : Block} (hb : s.blocks[b]? = some block)
    (hp : p ∈ block.blockParams.toList) : .param b p ∈ s.sites := by
  have hlt := (List.getElem?_eq_some_iff.1 hb).1
  refine List.mem_flatMap.2 ⟨b, List.mem_range.2 hlt, ?_⟩
  simp only [blockSites, hb, Option.elim_some, List.mem_append, List.mem_map]
  exact .inl ⟨p, hp, rfl⟩

theorem mem_sites_instr {b i : Nat} {block : Block} (hb : s.blocks[b]? = some block)
    (hi : i ∈ block.instrs.toList) : .instr b i ∈ s.sites := by
  have hlt := (List.getElem?_eq_some_iff.1 hb).1
  refine List.mem_flatMap.2 ⟨b, List.mem_range.2 hlt, ?_⟩
  simp only [blockSites, hb, Option.elim_some, List.mem_append, List.mem_map]
  exact .inr ⟨i, hi, rfl⟩

end Storage

/-! ## The vector of defined registers -/

/-- The vector after the sites `p`: their registers are marked, each met once. -/
structure Marks (s : Storage) (p : List Site) (defined : List Bool) : Prop where
  length : defined.length = s.registers.length
  marked : ∀ r, defined[r]? = some true ↔ r ∈ p.filterMap s.definition
  nodup : (p.filterMap s.definition).Nodup

variable {s : Storage} {p : List Site} {defined defined' : List Bool}

theorem marks_start (s : Storage) : Marks s [] (List.replicate s.registers.length false) where
  length := List.length_replicate
  marked r := by simp [List.getElem?_replicate]
  nodup := List.nodup_nil

/-- A site that defines nothing leaves the vector as it is. -/
theorem Marks.skip (h : Marks s p defined) {d : Site} (hd : s.definition d = none) :
    Marks s (p ++ [d]) defined where
  length := h.length
  marked r := by simpa [hd] using h.marked r
  nodup := by simpa [hd] using h.nodup

theorem Marks.define (h : Marks s p defined) {d : Site} {r : RegisterIdx}
    (hd : s.definition d = some r) (ho : define defined r = .ok defined') :
    Marks s (p ++ [d]) defined' := by
  simp only [Ir.define, bind_eq_ok, exists_unit, read_eq_ok, reject_eq_ok, pure_eq_ok] at ho
  obtain ⟨already, hr, hf, rfl⟩ := ho
  have hnew : r ∉ p.filterMap s.definition := fun hm => hf (by
    simpa [hr] using (h.marked r).2 hm)
  have hlt := (List.getElem?_eq_some_iff.1 hr).1
  refine ⟨by simp [h.length], fun q => ?_, ?_⟩
  · by_cases hq : q = r
    · subst hq
      simp [hd, hlt]
    · simp [hd, hq, Ne.symm hq, h.marked q]
  · simp only [List.filterMap_append, List.filterMap_cons, hd, List.filterMap_nil]
    exact List.nodup_append.2 ⟨h.nodup, List.nodup_cons.2 ⟨List.not_mem_nil, List.nodup_nil⟩, fun a ha b hb => by
      rintro rfl
      exact hnew (List.mem_singleton.1 hb ▸ ha)⟩

theorem Marks.param (h : Marks s p defined) {b pidx : Nat}
    (ho : defineParam s defined pidx = .ok defined') : Marks s (p ++ [.param b pidx]) defined' := by
  simp only [defineParam, bind_eq_ok, exists_unit, read_eq_ok, reject_eq_ok] at ho
  obtain ⟨param, hp, _, _, ho⟩ := ho
  exact h.define (by simp [Storage.definition, hp]) ho

theorem Marks.dst (h : Marks s p defined) {b iidx : Nat}
    (ho : defineDst s defined iidx = .ok defined') : Marks s (p ++ [.instr b iidx]) defined' := by
  simp only [defineDst, bind_eq_ok, read_eq_ok] at ho
  obtain ⟨instr, hi, ho⟩ := ho
  cases hdst : instr.dst with
  | none =>
    simp only [hdst, pure_eq_ok] at ho
    exact ho ▸ h.skip (by simp [Storage.definition, hi, hdst])
  | some dst =>
    simp only [hdst, bind_eq_ok, exists_unit, reject_eq_ok] at ho
    obtain ⟨_, ho⟩ := ho
    exact h.define (by simp [Storage.definition, hi, hdst]) ho

theorem Marks.block (h : Marks s p defined) {b : Nat}
    (ho : defineBlock s defined b = .ok defined') : Marks s (p ++ s.blockSites b) defined' := by
  simp only [defineBlock, bind_eq_ok, exists_unit, read_eq_ok, reject_eq_ok] at ho
  obtain ⟨block, hb, _, _, mid, hparams, hinstrs⟩ := ho
  have hp := foldlM_ok (p := []) (R := fun q d => Marks s (p ++ q.map (.param b)) d)
    (fun q a d d' hq hs => by simpa using hq.param hs) (by simpa using h) hparams
  have hi := foldlM_ok (p := []) (R := fun q d =>
      Marks s (p ++ block.blockParams.toList.map (.param b) ++ q.map (.instr b)) d)
    (fun q a d d' hq hs => by simpa using hq.dst hs) (by simpa using hp) hinstrs
  simpa [Storage.blockSites, hb] using hi

/-- **The whole pass**: every definition of the storage is marked, and no register has two. -/
theorem marks_of_define
    (ho : (List.range s.blocks.length).foldlM (defineBlock s)
      (List.replicate s.registers.length false) = .ok defined) : Marks s s.sites defined :=
  foldlM_ok (p := []) (R := fun q d => Marks s (q.flatMap s.blockSites) d)
    (fun q a d d' hq hs => by simpa using hq.block hs) (marks_start s) ho

/-- Equal values of a function whose values do not repeat come from one place. -/
theorem eq_of_nodup_filterMap {α β : Type} {f : α → Option β} {l : List α}
    (h : (l.filterMap f).Nodup) {a b : α} {r : β} (ha : a ∈ l) (hb : b ∈ l) (hfa : f a = some r)
    (hfb : f b = some r) : a = b := by
  induction l with
  | nil => exact absurd ha List.not_mem_nil
  | cons x l ih =>
    have hmem {c : α} (hc : c ∈ l) (hfc : f c = some r) : r ∈ l.filterMap f :=
      List.mem_filterMap.2 ⟨c, hc, hfc⟩
    rcases List.mem_cons.1 ha with rfl | ha' <;> rcases List.mem_cons.1 hb with rfl | hb'
    · rfl
    · simp only [List.filterMap_cons, hfa, List.nodup_cons] at h
      exact absurd (hmem hb' hfb) h.1
    · simp only [List.filterMap_cons, hfb, List.nodup_cons] at h
      exact absurd (hmem ha' hfa) h.1
    · refine ih ?_ ha' hb'
      cases hx : f x with
      | none => simpa [List.filterMap_cons, hx] using h
      | some _ =>
        simp only [List.filterMap_cons, hx, List.nodup_cons] at h
        exact h.2

/-! ## Acceptance -/

/-- The checks of an accepted storage, pass by pass. -/
theorem verifyStorage_eq_ok : verifyStorage s = .ok () ↔
    (∀ i < s.types.length, verifyType s i = .ok ()) ∧
    (∀ i < s.registers.length, verifyRegister s i = .ok ()) ∧
    (∀ i < s.immutables.length, verifyImmutable s i = .ok ()) ∧
    (∀ i < s.functions.length, verifyFunction s i = .ok ()) ∧
    ∃ defined, (List.range s.blocks.length).foldlM (defineBlock s)
        (List.replicate s.registers.length false) = .ok defined ∧
      (∀ i < s.blocks.length, verifyBlock s defined i = .ok ()) ∧
      ∀ func ∈ s.functions, func.blocks.isEmpty = false := by
  simp only [verifyStorage, bind_eq_ok, exists_unit, forM_eq_ok, List.mem_range, read_eq_ok, reject_eq_ok,
    Bool.not_eq_true]
  constructor
  · rintro ⟨ht, hr, hi, hf, defined, hd, hb, he⟩
    refine ⟨ht, hr, hi, hf, defined, hd, hb, fun func hm => ?_⟩
    obtain ⟨i, hlt, rfl⟩ := List.getElem_of_mem hm
    obtain ⟨func, hg, hne⟩ := he i hlt
    rw [List.getElem?_eq_getElem hlt, Option.some.injEq] at hg
    exact hg ▸ hne
  · rintro ⟨ht, hr, hi, hf, defined, hd, hb, he⟩
    refine ⟨ht, hr, hi, hf, defined, hd, hb, fun i hlt => ?_⟩
    exact ⟨_, List.getElem?_eq_getElem hlt, he _ (List.getElem_mem hlt)⟩

/-- **Single definition.** A register has one definition in an accepted storage, if any. -/
theorem soleDefinition_of_accepted (hv : verifyStorage s = .ok ()) {d : Site} {r : RegisterIdx}
    (hd : d ∈ s.sites) (hr : s.definition d = some r) : s.SoleDefinition r d := by
  obtain ⟨_, _, _, _, defined, ho, _⟩ := verifyStorage_eq_ok.1 hv
  intro e
  constructor
  · rintro ⟨he, hre⟩
    exact eq_of_nodup_filterMap (marks_of_define ho).nodup he hd hre hr
  · rintro rfl
    exact ⟨hd, hr⟩

theorem verifyBlock_eq_ok {b : BlockIdx} : verifyBlock s defined b = .ok () ↔
    ∃ block, s.blocks[b]? = some block ∧ block.instrs.isEmpty = false ∧
      ∀ i ∈ block.instrs.toList, verifyInstr s defined b block i = .ok () := by
  simp only [verifyBlock, bind_eq_ok, exists_unit, forM_eq_ok, read_eq_ok, reject_eq_ok,
    Bool.not_eq_true]

theorem verifyInstr_eq_ok {b i : Nat} {block : Block} :
    verifyInstr s defined b block i = .ok () ↔ ∃ instr, s.instrs[i]? = some instr ∧
      (isTerminator instr.op = true ↔ i + 1 = block.instrs.head + block.instrs.size) ∧
      instr.operands.head + instr.operands.size ≤ s.operands.length ∧
      (∀ o ∈ instr.operands.toList, verifyOperand s defined o = .ok ()) ∧
      verifyShape s i instr = .ok () := by
  simp only [verifyInstr, bind_eq_ok, exists_unit, forM_eq_ok, read_eq_ok, reject_eq_ok, not_not,
    rangeInBounds_iff, not_and]
  refine exists_congr fun instr => and_congr_right fun _ => ?_
  by_cases hlast : i + 1 = block.instrs.head + block.instrs.size <;>
    by_cases hterm : isTerminator instr.op = true <;> simp [hlast, hterm]

/-- **The checks of one instruction** of an accepted storage. The vector is the one that all the
definitions were marked in. -/
theorem instr_of_accepted (hv : verifyStorage s = .ok ()) {b i : Nat} {block : Block}
    (hb : s.blocks[b]? = some block) (hi : i ∈ block.instrs.toList) :
    ∃ defined instr, Marks s s.sites defined ∧ s.instrs[i]? = some instr ∧
      (isTerminator instr.op = true ↔ i + 1 = block.instrs.head + block.instrs.size) ∧
      instr.operands.head + instr.operands.size ≤ s.operands.length ∧
      (∀ o ∈ instr.operands.toList, verifyOperand s defined o = .ok ()) ∧
      verifyShape s i instr = .ok () := by
  obtain ⟨_, _, _, _, defined, ho, hblocks, _⟩ := verifyStorage_eq_ok.1 hv
  obtain ⟨block', hb', _, hinstrs⟩ :=
    verifyBlock_eq_ok.1 (hblocks b (List.getElem?_eq_some_iff.1 hb).1)
  rw [hb, Option.some.injEq] at hb'
  subst hb'
  obtain ⟨instr, h⟩ := verifyInstr_eq_ok.1 (hinstrs i hi)
  exact ⟨defined, instr, marks_of_define ho, h⟩

end Alcy.Ir
