import Alcy.Codegen.Computing
import Alcy.Codegen.Emitted
import Alcy.Lib.Assignment
import Alcy.Ir.WellFormed

/-! # Points of a program

The places control passes in a storage, and the registers that are assigned there whatever way
control came. In a strict program an instruction reads only those. What the emitter names a value
after is made at one point, so an assigned register does not change its value when control comes
there again (`name_fresh`).
-/
namespace Alcy.Codegen

open Alcy.Ir Alcy.Lib Alcy.Lib.Assignment Alcy.Lib.Llvm

/-- A place in a block: at its start, where its parameters are bound, or, as `j + 1`, before its
`j`-th instruction. -/
abbrev Point := BlockIdx × Nat

/-- The places of the operands that control may go to. -/
def targetPlaces (i : Instruction) : List Nat :=
  match i.op with
  | .br => [0]
  | .condBr => [1, 2]
  | .switch => 1 :: i.casePlaces.map (· + 1)
  | _ => []

section
variable (s : Storage)

/-- What is defined on the way from a point to the next one. -/
def sitesAt : Point → List Site
  | (b, 0) => (positions s.blocks b Block.blockParams).map (.param b)
  | (b, j + 1) => ((positions s.blocks b Block.instrs)[j]?).toList.map (.instr b)

/-- Control goes from one point to the other. -/
inductive Onward : Point → Point → Prop
  | next (b : BlockIdx) (j : Nat) : Onward (b, j) (b, j + 1)
  | jump {b : BlockIdx} {j : Nat} {iidx : InstructionIdx} {i : Instruction} {k : Nat}
      {target : BlockIdx} (hpos : (positions s.blocks b Block.instrs)[j]? = some iidx)
      (hi : s.instrs[iidx]? = some i) (hk : k ∈ targetPlaces i)
      (ht : targetAt s i k = some target) : Onward (b, j + 1) (target, 0)

def Assigns (a : Point) (r : RegisterIdx) : Prop :=
  ∃ d ∈ sitesAt s a, s.definition d = some r ∧ YieldsValue s d

/-- The register is assigned on every way from the start of `e` to the point. -/
abbrev Available (e : BlockIdx) (a : Point) (r : RegisterIdx) : Prop :=
  Assigned (Onward s) (e, 0) (Assigns s) a r

/-- The first block of a function. -/
def Starts (e : BlockIdx) : Prop := ∃ f < s.functions.length, (blocksOf s f).head? = some e

/-- Every register operand is assigned, whatever way control came from `e`. -/
def Strict (e : BlockIdx) : Prop :=
  ∀ b j iidx i, (positions s.blocks b Block.instrs)[j]? = some iidx → s.instrs[iidx]? = some i →
    ∀ k o r, operand s i k = some o → o.data = .register r → Available s e (b, j + 1) r

/-- A branch finds its arguments, which it looks for at the places of the parameters in the table of
all parameters, where they are. -/
def ArgumentsInPlace : Prop :=
  ∀ i ∈ s.instrs, i.op = .br → ∀ target block, branchTarget s i = some target →
    s.blocks[target]? = some block → ∀ j < block.blockParams.size,
      (s.operands[i.operands.head + (1 + (block.blockParams.head + j))]?).map Operand.data =
        (s.operands[i.operands.head + (1 + j)]?).map Operand.data

end

/-- **What the emitter relies on.** The emission is done, functions take no arguments, programs are
strict, branches find their arguments, and what becomes an alias has an operand. -/
structure Relied (s : Storage) (fin : LlvmIrStorage) : Prop where
  done : Done s fin
  noArguments : ∀ e, Starts s e → positions s.blocks e Block.blockParams = []
  strict : ∀ e, Starts s e → Strict s e
  inPlace : ArgumentsInPlace s
  aliases : ∀ i ∈ s.instrs, i.op = .move ∨ i.op = .typeCast → 0 < i.operands.size

variable {s : Storage} {fin : LlvmIrStorage}

/-! ## Points and sites -/

theorem sitesAt_mem {a : Point} {d : Site} (h : d ∈ sitesAt s a) : d ∈ s.sites ∧ d.block = a.1 := by
  obtain ⟨b, j⟩ := a
  cases j with
  | zero =>
    obtain ⟨p, hp, rfl⟩ := List.mem_map.1 h
    obtain ⟨block, hblock, hp⟩ := mem_positions.1 hp
    exact ⟨Storage.mem_sites_param hblock hp, rfl⟩
  | succ j =>
    obtain ⟨i, hi, rfl⟩ := List.mem_map.1 h
    obtain ⟨block, hblock, hi⟩ := mem_positions.1 (List.mem_of_getElem? (Option.mem_toList.1 hi))
    exact ⟨Storage.mem_sites_instr hblock hi, rfl⟩

/-- A site is at one point. -/
theorem sitesAt_unique {a c : Point} {d : Site} (ha : d ∈ sitesAt s a) (hc : d ∈ sitesAt s c) :
    a = c := by
  have hb := (sitesAt_mem ha).2.symm.trans (sitesAt_mem hc).2
  obtain ⟨b, j⟩ := a
  obtain ⟨b', k⟩ := c
  obtain rfl : b = b' := hb
  cases j <;> cases k <;> simp only [sitesAt, List.mem_map, Option.mem_toList] at ha hc
  case zero.zero => rfl
  case zero.succ =>
    obtain ⟨p, _, rfl⟩ := ha
    obtain ⟨i, _, h⟩ := hc
    cases h
  case succ.zero =>
    obtain ⟨i, _, rfl⟩ := ha
    obtain ⟨p, _, h⟩ := hc
    cases h
  case succ.succ j k =>
    obtain ⟨i, hi, rfl⟩ := ha
    obtain ⟨i', hi', h⟩ := hc
    cases h
    have hlt := (List.getElem?_eq_some_iff.1 hi).1
    have hnodup := nodup_positions s.blocks b Block.instrs
    rw [(List.getElem?_inj hlt hnodup).1 (hi.trans hi'.symm)]

/-- What is assigned somewhere on the way was defined there by the one site that defines it. -/
theorem assigned_site (hv : verifyStorage s = .ok ()) {e : BlockIdx} {left : List Point} {a : Point}
    (hp : Path (Onward s) (e, 0) left a) {d : Site} (hd : d ∈ s.sites) {r : RegisterIdx}
    (hr : s.definition d = some r) (h : Available s e a r) : YieldsValue s d := by
  obtain ⟨c, _, d', hd', hr', hy⟩ := h left hp
  obtain rfl := (soleDefinition_of_accepted hv hd hr d').1 ⟨(sitesAt_mem hd').1, hr'⟩
  exact hy

/-! ## Listed blocks -/

theorem built_of_target {i : Instruction} (hop : i.op ≠ .br) {k : Nat} (hk : k ∈ targetPlaces i) :
    k ∈ builtPlaces i := by
  unfold targetPlaces at hk
  split at hk
  · exact absurd ‹_› hop
  · next h =>
    rw [builtPlaces, h]
    exact .tail _ hk
  · next h =>
    rw [builtPlaces, h]
    rcases List.mem_cons.1 hk with rfl | hk
    · exact .tail _ (List.mem_cons_self ..)
    · obtain ⟨k', hk', rfl⟩ := List.mem_map.1 hk
      exact .tail _ (.tail _ (List.mem_flatMap.2 ⟨k', hk', .tail _ (List.mem_cons_self ..)⟩))
  · exact absurd hk List.not_mem_nil

theorem NamesAt.block {i : Instruction} {k : Nat} {v : Value} {target : BlockIdx}
    (h : NamesAt s fin i k v) (ht : targetAt s i k = some target) :
    v = .block target ∧ Listed s target := by
  obtain ⟨o, ho, hlabel⟩ := Option.bind_eq_some_iff.1 ht
  obtain ⟨o', ho', hnames⟩ := h
  cases (operand_eq ho).symm.trans ho'
  rwa [Names, asBlock_eq_some.1 hlabel] at hnames

/-- The targets of an instruction are emitted. -/
theorem Becomes.listed {iidx : InstructionIdx} {i : Instruction} {is : List LlvmInstr}
    (h : Becomes s fin iidx i is) {k : Nat} (hk : k ∈ targetPlaces i) {target : BlockIdx}
    (ht : targetAt s i k = some target) : Listed s target := by
  have hnone (hop : i.op ∉ [.br, .condBr, .switch]) : False := by
    unfold targetPlaces at hk
    split at hk <;> simp_all
  cases h with
  | skip hop =>
    refine (hnone ?_).elim
    rcases hop with hop | hop | ⟨hop, -⟩
    · simp [hop]
    · simp [hop]
    · intro hmem
      simp only [List.mem_cons, List.not_mem_nil, or_false] at hmem
      rcases hmem with he | he | he <;> simp [he, discardable] at hop
  | aliased hop => exact (hnone (by rcases hop with hop | ⟨hop, -⟩ <;> simp [hop])).elim
  | build hop hcast hdst hvs =>
    have hbr : i.op ≠ .br := fun he => hop (by simp [he])
    obtain ⟨v, _, hv⟩ := forall₂_mem_left hvs (built_of_target hbr hk)
    exact (hv.block ht).2
  | br hop htarget hlisted =>
    rw [targetPlaces, hop] at hk
    obtain rfl := List.mem_singleton.1 hk
    obtain ⟨o, ho, hlabel⟩ := Option.bind_eq_some_iff.1 ht
    obtain ⟨o', ho', hlabel'⟩ := Option.bind_eq_some_iff.1 htarget
    cases (operand_eq ho).symm.trans ho'
    cases hlabel.symm.trans hlabel'
    exact hlisted

/-- The instruction at a point, as it is emitted. -/
theorem Done.becomes (h : Done s fin) {b : BlockIdx} (hb : Listed s b) {j : Nat}
    {iidx : InstructionIdx} (hpos : (positions s.blocks b Block.instrs)[j]? = some iidx)
    {i : Instruction} (hi : s.instrs[iidx]? = some i) : ∃ is, Becomes s fin iidx i is := by
  obtain ⟨iss, -, hall⟩ := h.instrs hb
  obtain ⟨is, _, i', hi', hbec⟩ := forall₂_mem_left hall (List.mem_of_getElem? hpos)
  cases hi.symm.trans hi'
  exact ⟨is, hbec⟩

/-- A block has one terminator. -/
theorem Done.terminator_unique (h : Done s fin) {b : BlockIdx} {k k' : InstructionIdx}
    {i i' : Instruction} (hk : k ∈ positions s.blocks b Block.instrs)
    (hk' : k' ∈ positions s.blocks b Block.instrs) (hi : s.instrs[k]? = some i)
    (hi' : s.instrs[k']? = some i') (hterm : isTerminator i.op = true)
    (hterm' : isTerminator i'.op = true) : k = k' := by
  obtain ⟨block, hblock, hk⟩ := mem_positions.1 hk
  obtain ⟨block', hblock', hk'⟩ := mem_positions.1 hk'
  cases hblock.symm.trans hblock'
  have hlast := (wellFormed_of_accepted h.accepted).terminated block (List.mem_of_getElem? hblock)
  have hend := (hlast k hk i hi).1 hterm
  exact Option.some.inj (hend.symm.trans ((hlast k' hk' i' hi').1 hterm'))

/-- Control stays in the blocks that are emitted. -/
theorem Done.listed_of_path (h : Done s fin) {e : BlockIdx} (he : Starts s e) {left : List Point}
    {a : Point} (hp : Path (Onward s) (e, 0) left a) : Listed s a.1 := by
  induction hp with
  | start =>
    obtain ⟨f, hf, hhead⟩ := he
    exact ⟨f, hf, List.mem_of_mem_head? hhead⟩
  | step _ hedge ih =>
    cases hedge with
    | next => exact ih
    | jump hpos hi hk ht =>
      obtain ⟨is, hbec⟩ := h.becomes ih hpos hi
      exact hbec.listed hk ht

/-! ## Names -/

/-- The value that a register is, in the module. -/
def nameOf (fin : LlvmIrStorage) (r : RegisterIdx) : Option Value := (fin.registers[r]?).join

/-- The value made for a site. -/
def made : Site → Value
  | .param _ p => .phi p
  | .instr _ i => .instr i

/-- A value that no step of the program makes. -/
def IsBase (v : Option Value) : Prop := ∀ d : Site, v ≠ some (made d)

/-- The point makes the value of a register. -/
def Makes (s : Storage) (a : Point) (v : Option Value) : Prop :=
  ∃ d ∈ sitesAt s a, (∃ r, s.definition d = some r) ∧ v = some (made d)

theorem makes_unique (hv : verifyStorage s = .ok ()) {a c : Point} {d : Site}
    (hd : d ∈ sitesAt s a) (hc : Makes s c (some (made d))) : c = a := by
  obtain ⟨d', hd', ⟨r, hr⟩, heq⟩ := hc
  have hdef : s.definition d = some r := by
    rw [← hr]
    cases d <;> cases d' <;> cases heq <;> rfl
  obtain rfl := (soleDefinition_of_accepted hv (sitesAt_mem hd').1 hr d).1 ⟨(sitesAt_mem hd).1, hdef⟩
  exact sitesAt_unique hd' hd

theorem nameOf_eq {r : RegisterIdx} {v : Value} (h : fin.registers[r]? = some (some v)) :
    nameOf fin r = some v := by
  rw [nameOf, h]
  rfl

/-- An instruction that writes no entry has no place among the sites that yield a value. -/
theorem writes_of_yields {b : BlockIdx} {iidx : InstructionIdx} {i : Instruction}
    (hi : s.instrs[iidx]? = some i) (hy : YieldsValue s (.instr b iidx)) :
    writesDst i.op = true := by
  obtain ⟨i', hi', hw⟩ := hy
  cases hi.symm.trans hi'
  exact hw

/-- **Where a name comes from**: it was made for the register, or is that of an operand. -/
theorem Relied.origin (h : Relied s fin) {e : BlockIdx} (he : Starts s e) {left : List Point}
    {a : Point} (hp : Path (Onward s) (e, 0) left a) {r : RegisterIdx} (hr : Assigns s a r) :
    IsBase (nameOf fin r) ∨ Makes s a (nameOf fin r) ∨
      ∃ q, Available s e a q ∧ nameOf fin q = nameOf fin r := by
  have hlisted := h.done.listed_of_path he hp
  obtain ⟨d, hd, hdef, hy⟩ := hr
  obtain ⟨b, j⟩ := a
  cases j with
  | zero =>
    obtain ⟨p, hp, rfl⟩ := List.mem_map.1 hd
    obtain ⟨param, hparam, hname⟩ := h.done.phi hlisted hp
    have hreg : param.reg = r := by simpa [Storage.definition, hparam] using hdef
    exact .inr (.inl ⟨_, hd, ⟨r, hdef⟩, nameOf_eq (hreg ▸ hname)⟩)
  | succ j =>
    obtain ⟨iidx, hpos, rfl⟩ := List.mem_map.1 hd
    have hpos := Option.mem_toList.1 hpos
    obtain ⟨i, hi, hdst⟩ := Option.bind_eq_some_iff.1 hdef
    have hw := writes_of_yields hi hy
    obtain ⟨is, hbec⟩ := h.done.becomes hlisted hpos hi
    cases hbec with
    | skip hop =>
      rcases hop with hop | hop | ⟨-, hnone⟩
      · rw [hop] at hw; cases hw
      · rw [hop] at hw; cases hw
      · rw [hnone] at hdst; cases hdst
    | @aliased dst v hop hdst' hv hname =>
      cases hdst.symm.trans hdst'
      obtain ⟨o, ho, hnames⟩ := hv
      have hsize := h.aliases i (List.mem_of_getElem? hi) (hop.imp_right And.left)
      have hoperand : operand s i 0 = some o := by rw [operand, if_pos hsize]; exact ho
      rw [nameOf_eq hname]
      cases hdata : o.data <;> rw [Names, hdata] at hnames <;> simp only at hnames
      case register q =>
        exact .inr (.inr ⟨q, h.strict e he b j iidx i hpos hi 0 o q hoperand hdata, nameOf_eq hnames⟩)
      case block c => exact .inl fun d => by rw [hnames.1]; cases d <;> simp [made]
      case immutable k => exact .inl fun d => by rw [hnames]; cases d <;> simp [made]
      case function f => exact .inl fun d => by rw [hnames]; cases d <;> simp [made]
      case externalFunction f => exact .inl fun d => by rw [hnames]; cases d <;> simp [made]
    | build hop hcast hdst' hvs hindices helement hname =>
      exact .inr (.inl ⟨_, hd, ⟨r, hdef⟩, nameOf_eq (hname r hw hdst)⟩)
    | br hop => rw [hop] at hw; cases hw

/-- **What a point makes is new there**: no register that is assigned on every way to the point has
its name, also when control comes there again. -/
theorem Relied.name_fresh (h : Relied s fin) {e : BlockIdx} (he : Starts s e) {left : List Point}
    {a : Point} (hp : Path (Onward s) (e, 0) left a) {d : Site} (hd : d ∈ sitesAt s a)
    {r : RegisterIdx} (hr : Available s e a r) : nameOf fin r ≠ some (made d) :=
  name_ne_of_assigned (fun _ _ _ hp hr => h.origin he hp hr) (fun hbase => hbase d rfl)
    (fun _ hc => makes_unique h.done.accepted hd hc) hp hr

end Alcy.Codegen
