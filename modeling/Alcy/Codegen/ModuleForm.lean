import Alcy.Codegen.Preserves
import Alcy.Ir.Shapes

/-! # The form of the emitted module

The module of an emission that is done has the form that LLVM asks for: one terminator at the end of
each block, and in each phi node one arm for each block that branches there
(`emittedModule_wellFormed`).
-/
namespace Alcy.Codegen

open Alcy.Ir Alcy.Lib Alcy.Lib.Assignment Alcy.Lib.Guards Alcy.Lib.Traced Alcy.Lib.Llvm

variable {s : Storage} {fin : LlvmIrStorage} {iidx : InstructionIdx} {i : Instruction}
  {is : List LlvmInstr}

/-! ## Targets -/

/-- A target that the verifier has checked. -/
theorem targetAt_of_block {params : Nat → Prop} {k : Nat} (hk : k < i.operands.size)
    (h : OperandAt s (i.operands.head + k) (BlockOperand s params)) : ∃ c block,
      targetAt s i k = some c ∧ s.blocks[c]? = some block ∧ params block.blockParams.size := by
  obtain ⟨o, ho, c, block, hc, hblock, hparams⟩ := h
  exact ⟨c, block, by rw [targetAt, operand, if_pos hk, ho]; exact hc, hblock, hparams⟩

/-- The targets of an accepted instruction. Only a branch has one with parameters. -/
theorem targets_of_accepted (hv : verifyStorage s = .ok ()) {b : BlockIdx}
    (hpos : iidx ∈ positions s.blocks b Block.instrs) (hi : s.instrs[iidx]? = some i) :
    ∀ k ∈ targetPlaces i, ∃ c, targetAt s i k = some c ∧
      (i.op ≠ .br → ∃ block, s.blocks[c]? = some block ∧ block.blockParams.size = 0) := by
  obtain ⟨block, hblock, hmem⟩ := mem_positions.1 hpos
  obtain ⟨_, i', _, hi', _, _, _, hshape⟩ := instr_of_accepted hv hblock hmem
  cases hi.symm.trans hi'
  intro k hk
  unfold verifyShape at hshape
  have hplain {k : Nat} (hk : k < i.operands.size)
      (h : OperandAt s (i.operands.head + k) (PlainBlock s)) : ∃ c, targetAt s i k = some c ∧
        (i.op ≠ .br → ∃ block, s.blocks[c]? = some block ∧ block.blockParams.size = 0) := by
    obtain ⟨c, block, hc, hblock, hsize⟩ := targetAt_of_block hk h
    exact ⟨c, hc, fun _ => ⟨block, hblock, hsize⟩⟩
  unfold targetPlaces at hk
  split at hk
  · next hop =>
    simp only [hop, verifyBr, bind_eq_ok, exists_unit, reject_eq_ok, read_eq_ok] at hshape
    obtain ⟨hne, o, ho, hlabel⟩ := hshape
    obtain rfl := List.mem_singleton.1 hk
    obtain ⟨c, hc⟩ := Option.ne_none_iff_exists'.1 (by simpa using hlabel : o.asBlock ≠ none)
    have hsize : 0 < i.operands.size := by simpa [IdxRange.isEmpty, Nat.pos_iff_ne_zero] using hne
    refine ⟨c, ?_, absurd hop⟩
    rw [targetAt, operand, if_pos hsize, Nat.add_zero, ho]
    exact hc
  · next hop =>
    rw [hop] at hshape
    obtain ⟨hsize, -, h₁, h₂⟩ := condBr_ok hshape
    simp only [List.mem_cons, List.not_mem_nil, or_false] at hk
    rcases hk with rfl | rfl
    · exact hplain (by omega) h₁
    · exact hplain (by omega) h₂
  · next hop =>
    rw [hop] at hshape
    obtain ⟨cases, hsize, -, hdefault, hcases⟩ := switch_ok hshape
    rcases List.mem_cons.1 hk with rfl | hk
    · exact hplain (by omega) hdefault
    · obtain ⟨k', hk', rfl⟩ := List.mem_map.1 hk
      obtain ⟨n, hn, rfl⟩ := List.mem_range'.1 hk'
      exact hplain (by omega) (by simpa [Nat.add_assoc] using (hcases n (by omega)).2)
  · exact nomatch hk

/-! ## Terminators -/

/-- What is not a terminator becomes none. -/
theorem Becomes.plain (h : Becomes s fin iidx i is) (hterm : isTerminator i.op = false) :
    ∀ x ∈ is, x.isTerminator = false := by
  cases h with
  | skip | aliased => exact fun _ hx => nomatch hx
  | br hop => rw [hop] at hterm; cases hterm
  | @build st vs indices hop hcast hdst hvs =>
    intro x hx
    have hx := Option.mem_toList.1 hx
    simp only [isTerminator, decide_eq_false_iff_not, not_or] at hterm
    by_cases hcall : i.op = .call
    · unfold llvmInstr at hx
      rw [hcall] at hx
      rcases vs with _ | ⟨v, args⟩
      · simp [selectOp, hcall] at hx
      · cases v <;> simp [selectOp, hcall] at hx <;> subst hx <;> rfl
    · rw [llvmInstr_select (by simp [hterm, hcall])] at hx
      obtain ⟨o, _, rfl⟩ := Option.map_eq_some_iff.1 hx
      rfl

/-- The cases of a switch. -/
theorem exists_readCases {ks : List Nat} {vs : List Value}
    (hvs : List.Forall₂ (NamesAt s fin i) (ks.flatMap fun k => [k, k + 1]) vs)
    (ht : ∀ k ∈ ks, ∃ c, targetAt s i (k + 1) = some c) : ∃ cs, readCases vs = some cs ∧
      ∀ c, c ∈ cs.map Prod.snd ↔ ∃ k ∈ ks, targetAt s i (k + 1) = some c := by
  induction ks generalizing vs with
  | nil =>
    cases hvs
    exact ⟨[], rfl, by simp⟩
  | cons k ks ih =>
    rw [List.flatMap_cons] at hvs
    obtain ⟨v, _, hv, hvs₁, rfl⟩ := List.forall₂_cons_left_iff.1 hvs
    obtain ⟨t, ws, hnames, hws, rfl⟩ := List.forall₂_cons_left_iff.1 hvs₁
    obtain ⟨target, htarget⟩ := ht k (List.mem_cons_self ..)
    obtain ⟨rfl, -⟩ := hnames.block htarget
    obtain ⟨cs, hread, hcs⟩ := ih hws fun k hk => ht k (.tail _ hk)
    refine ⟨(v, target) :: cs, by simp [readCases, asLabel, hread], fun c => ?_⟩
    rw [List.map_cons, List.mem_cons, hcs]
    simp [htarget, eq_comm]

/-- A terminator becomes one, with its targets. -/
theorem Becomes.terminator (h : Becomes s fin iidx i is) (hterm : isTerminator i.op = true)
    (ht : ∀ k ∈ targetPlaces i, ∃ c, targetAt s i k = some c) :
    ∃ x, is = [x] ∧ x.isTerminator = true ∧
      ∀ c, c ∈ x.targets ↔ ∃ k ∈ targetPlaces i, targetAt s i k = some c := by
  cases h with
  | skip hop =>
    rcases hop with hop | hop | ⟨hop, -⟩
    · rw [hop] at hterm; cases hterm
    · rw [hop] at hterm; cases hterm
    · cases hi : i.op <;> simp [hi, discardable, isTerminator] at hop hterm
  | aliased hop => rcases hop with hop | ⟨hop, -⟩ <;> rw [hop] at hterm <;> cases hterm
  | @br target hop htarget =>
    have hplaces : targetPlaces i = [0] := by rw [targetPlaces, hop]
    obtain ⟨c, hc⟩ := ht 0 (by simp [hplaces])
    obtain ⟨o, ho, hlabel⟩ := Option.bind_eq_some_iff.1 hc
    obtain ⟨o', ho', hlabel'⟩ := Option.bind_eq_some_iff.1 htarget
    cases ho'.symm.trans (operand_eq ho)
    cases hlabel.symm.trans hlabel'
    exact ⟨_, rfl, rfl, fun c => by simp [Instr.targets, hplaces, hc, eq_comm]⟩
  | @build st vs indices hop hcast hdst hvs =>
    have hops : i.op = .condBr ∨ i.op = .switch ∨ i.op = .ret ∨ i.op = .unreachable := by
      simp only [List.mem_cons, List.not_mem_nil, or_false, not_or] at hop
      simpa [isTerminator, hop] using hterm
    rcases hops with hop | hop | hop | hop
    · have hplaces : targetPlaces i = [1, 2] := by rw [targetPlaces, hop]
      rw [show builtPlaces i = [0, 1, 2] by rw [builtPlaces, hop]] at hvs
      obtain ⟨cond, _, hcond, hvs₁, rfl⟩ := List.forall₂_cons_left_iff.1 hvs
      obtain ⟨t, _, hname₁, hvs₂, rfl⟩ := List.forall₂_cons_left_iff.1 hvs₁
      obtain ⟨f, _, hname₂, hvs₃, rfl⟩ := List.forall₂_cons_left_iff.1 hvs₂
      cases hvs₃
      obtain ⟨c₁, h₁⟩ := ht 1 (by simp [hplaces])
      obtain ⟨c₂, h₂⟩ := ht 2 (by simp [hplaces])
      obtain ⟨rfl, -⟩ := hname₁.block h₁
      obtain ⟨rfl, -⟩ := hname₂.block h₂
      refine ⟨.condBr cond c₁ c₂, by simp [llvmInstr, hop, asLabel], rfl, fun c => ?_⟩
      simp [Instr.targets, hplaces, h₁, h₂, eq_comm]
    · have hplaces : targetPlaces i = 1 :: i.casePlaces.map (· + 1) := by rw [targetPlaces, hop]
      rw [show builtPlaces i = 0 :: 1 :: i.casePlaces.flatMap fun k => [k, k + 1] by
        rw [builtPlaces, hop]] at hvs
      obtain ⟨v, _, hv, hvs₁, rfl⟩ := List.forall₂_cons_left_iff.1 hvs
      obtain ⟨d, ws, hd, hws, rfl⟩ := List.forall₂_cons_left_iff.1 hvs₁
      obtain ⟨c₁, h₁⟩ := ht 1 (by simp [hplaces])
      obtain ⟨rfl, -⟩ := hd.block h₁
      obtain ⟨cs, hread, hcs⟩ := exists_readCases hws fun k hk =>
        ht (k + 1) (by rw [hplaces]; exact .tail _ (List.mem_map_of_mem hk))
      refine ⟨.switch v c₁ cs, by simp [llvmInstr, hop, asLabel, hread], rfl, fun c => ?_⟩
      rw [Instr.targets, List.mem_cons, hcs, hplaces]
      simp [h₁, eq_comm]
    · have hplaces : targetPlaces i = [] := by rw [targetPlaces, hop]
      rw [show builtPlaces i = if i.operands.isEmpty then [] else [0] by rw [builtPlaces, hop]] at hvs
      split at hvs
      · cases hvs
        exact ⟨.ret none, by simp [llvmInstr, hop], rfl, fun c => by simp [Instr.targets, hplaces]⟩
      · obtain ⟨v, _, hv, hvs₁, rfl⟩ := List.forall₂_cons_left_iff.1 hvs
        cases hvs₁
        exact ⟨.ret (some v), by simp [llvmInstr, hop], rfl,
          fun c => by simp [Instr.targets, hplaces]⟩
    · have hplaces : targetPlaces i = [] := by rw [targetPlaces, hop]
      rw [show builtPlaces i = [] by rw [builtPlaces, hop]] at hvs
      cases hvs
      exact ⟨.unreachable, by simp [llvmInstr, hop], rfl, fun c => by simp [Instr.targets, hplaces]⟩

/-! ## Blocks -/

theorem Done.exists_block (h : Done s fin) {b : BlockIdx} (hb : Listed s b) :
    ∃ block, s.blocks[b]? = some block := by
  obtain ⟨f, hf, hb⟩ := hb
  obtain ⟨func, hfunc, hb⟩ := mem_positions.1 hb
  obtain ⟨-, -, -, hfunctions, -⟩ := verifyStorage_eq_ok.1 h.accepted
  obtain ⟨func', hfunc', hv⟩ := bind_eq_ok.1 (hfunctions f hf)
  cases hfunc.symm.trans (read_eq_ok.1 hfunc')
  obtain ⟨_, hrange, -⟩ := bind_eq_ok.1 hv
  have hle := reject_eq_ok.1 hrange
  rw [not_not, rangeInBounds_iff] at hle
  exact ⟨_, List.getElem?_eq_getElem (by have := (IdxRange.mem_toList.1 hb).2; omega)⟩

theorem exists_last {α β : Type} {R : α → List β → Prop} {xs : List α} {x : α} {iss : List (List β)}
    (h : List.Forall₂ R (xs ++ [x]) iss) :
    ∃ front is, iss = front ++ [is] ∧ List.Forall₂ R xs front ∧ R x is := by
  induction xs generalizing iss with
  | nil =>
    obtain ⟨is, _, hx, hnil, rfl⟩ := List.forall₂_cons_left_iff.1 h
    cases hnil
    exact ⟨[], is, rfl, .nil, hx⟩
  | cons y xs ih =>
    obtain ⟨js, _, hy, hrest, rfl⟩ := List.forall₂_cons_left_iff.1 h
    obtain ⟨front, is, rfl, hfront, hx⟩ := ih hrest
    exact ⟨js :: front, is, rfl, .cons hy hfront, hx⟩

/-- **The end of a block**: its last instruction is emitted as the one terminator. -/
theorem Done.terminator (h : Done s fin) {b : BlockIdx} (hb : Listed s b) :
    ∃ init last iidx i, ((emittedModule s).block b).instrs = init ++ [last] ∧
      (∀ x ∈ init, x.isTerminator = false) ∧ last.isTerminator = true ∧
      iidx ∈ positions s.blocks b Block.instrs ∧ s.instrs[iidx]? = some i ∧
      isTerminator i.op = true ∧
      ∀ c, c ∈ last.targets ↔ ∃ k ∈ targetPlaces i, targetAt s i k = some c := by
  obtain ⟨block, hblock⟩ := h.exists_block hb
  have hform := wellFormed_of_accepted h.accepted
  have hmem := List.mem_of_getElem? hblock
  have hpos : positions s.blocks b Block.instrs = block.instrs.toList := by
    rw [positions, hblock, Option.elim_some]
  obtain ⟨iss, hinstrs, hall⟩ := h.instrs hb
  obtain hnil | ⟨before, iidx, hcat⟩ := List.eq_nil_or_concat block.instrs.toList
  · exact absurd hnil (hform.nonempty block hmem)
  rw [List.concat_eq_append] at hcat
  have hlast : iidx ∈ block.instrs.toList := by simp [hcat]
  rw [hpos, hcat] at hall
  obtain ⟨front, is, rfl, hfront, i, hi, hbec⟩ := exists_last hall
  have hiidx : iidx ∈ positions s.blocks b Block.instrs := hpos ▸ hlast
  have hterm : isTerminator i.op = true :=
    (hform.terminated block hmem iidx hlast i hi).2 (by rw [hcat, List.getLast?_concat])
  have htargets := targets_of_accepted h.accepted hiidx hi
  obtain ⟨last, rfl, hterminates, hto⟩ := hbec.terminator hterm
    fun k hk => (htargets k hk).imp fun _ => And.left
  refine ⟨front.flatten, last, iidx, i, by simp [hinstrs], fun x hx => ?_, hterminates, hiidx, hi,
    hterm, hto⟩
  obtain ⟨js, hjs, hx⟩ := List.mem_flatten.1 hx
  obtain ⟨k, hk, j, hj, hbecomes⟩ := forall₂_mem_right hfront hjs
  refine hbecomes.plain (Bool.eq_false_iff.2 fun hjterm => ?_) x hx
  have hend := (hform.terminated block hmem k (by simp [hcat, hk]) j hj).1 hjterm
  rw [hcat, List.getLast?_concat, Option.some.injEq] at hend
  have hnodup := nodup_positions s.blocks b Block.instrs
  rw [hpos, hcat, hend] at hnodup
  exact (List.nodup_append'.1 hnodup).2.2 hk (List.mem_singleton_self _)

/-- A block goes where its terminator goes. -/
theorem targets_eq_nil {x : LlvmInstr} (h : x.isTerminator = false) : x.targets = [] := by
  cases x <;> first | rfl | cases h

/-- The targets of a block are those of its last instruction. -/
theorem Done.exists_goes (h : Done s fin) {b : BlockIdx} (hb : Listed s b) :
    ∃ iidx ∈ positions s.blocks b Block.instrs, ∃ i, s.instrs[iidx]? = some i ∧
      isTerminator i.op = true ∧
      ∀ c, (∃ x ∈ ((emittedModule s).block b).instrs, c ∈ x.targets) ↔
        ∃ k ∈ targetPlaces i, targetAt s i k = some c := by
  obtain ⟨init, last, iidx, i, hinstrs, hinit, -, hiidx, hi, hterm, hto⟩ := h.terminator hb
  refine ⟨iidx, hiidx, i, hi, hterm, fun c => ?_⟩
  rw [← hto c, hinstrs]
  constructor
  · rintro ⟨x, hx, hc⟩
    rcases List.mem_append.1 hx with hx | hx
    · rw [targets_eq_nil (hinit x hx)] at hc
      exact nomatch hc
    · obtain rfl := List.mem_singleton.1 hx
      exact hc
  · exact fun hc => ⟨last, by simp, hc⟩

/-! ## Arms -/

/-- A parameter is one of a single block. -/
theorem param_unique (hv : verifyStorage s = .ok ()) {b c : BlockIdx} {p : BlockParamIdx}
    {param : BlockParam} (hparam : s.blockParams[p]? = some param)
    (hb : p ∈ positions s.blocks b Block.blockParams)
    (hc : p ∈ positions s.blocks c Block.blockParams) : b = c := by
  have hdef (b : BlockIdx) : s.definition (.param b p) = some param.reg := by
    rw [Storage.definition, hparam, Option.map_some]
  have hb := sitesAt_mem (s := s) (a := (b, 0)) (List.mem_map_of_mem hb)
  have hc := sitesAt_mem (s := s) (a := (c, 0)) (List.mem_map_of_mem hc)
  cases (soleDefinition_of_accepted hv hb.1 (hdef b) _).1 ⟨hc.1, hdef c⟩
  rfl

/-- A branch hands a value over to each parameter of its target. -/
theorem Done.exists_handed (h : Done s fin) {c : BlockIdx} (hc : Listed s c)
    (hpos : iidx ∈ positions s.blocks c Block.instrs) (hi : s.instrs[iidx]? = some i)
    (hop : i.op = .br) {target : BlockIdx} (ht : branchTarget s i = some target) {p : BlockParamIdx}
    (hp : p ∈ positions s.blocks target Block.blockParams) : ∃ v, NamesAt s fin i (1 + p) v := by
  obtain ⟨f, hf, hc⟩ := hc
  obtain ⟨start, hs⟩ := h.exists_stages
  obtain ⟨before, st', hsub, hr⟩ := hs.reached _ (instr_mem hf hc hpos)
  obtain ⟨i', hi', hl⟩ := lowers_step hr.result hr.found
  cases hi.symm.trans hi'
  generalize List.filter Event.isRequest _ = requests at hl
  cases hl with
  | skip hskip => rcases hskip with he | he | ⟨he, -⟩ <;> rw [hop] at he <;> cases he
  | aliased haliased => rcases haliased with he | ⟨he, -⟩ <;> rw [hop] at he <;> cases he
  | build hbuild => exact absurd (by simp [hop]) hbuild
  | @br target' block value arms _ htarget hblock _ harms =>
    cases ht.symm.trans htarget
    obtain ⟨block', hblock', hp⟩ := mem_positions.1 hp
    cases hblock.symm.trans hblock'
    obtain ⟨_, _, param, phi, v, -, -, hv, -⟩ := forall₂_mem_left harms hp
    exact ⟨v, hr.heldAt hsub hv⟩

/-- The blocks that a phi node has arms for are those that branch to it. -/
theorem Done.mem_arms (h : Done s fin) {b : BlockIdx} (hb : Listed s b) {p : BlockParamIdx}
    (hp : p ∈ positions s.blocks b Block.blockParams) {c : BlockIdx} :
    c ∈ (armsOf s p).map Prod.snd ↔
      Listed s c ∧ ∃ x ∈ ((emittedModule s).block c).instrs, b ∈ x.targets := by
  have htarget {i : Instruction} (hop : i.op = .br) :
      targetPlaces i = [0] := by rw [targetPlaces, hop]
  obtain ⟨param, hparam, -⟩ := h.phi hb hp
  constructor
  · intro hc
    obtain ⟨⟨v, c⟩, harm, rfl⟩ := List.mem_map.1 hc
    obtain ⟨hlisted, k, hk, i, target, hi, hop, ht, hptarget, -⟩ := h.arms.1 harm
    obtain rfl := param_unique h.accepted hparam hp hptarget
    obtain ⟨k', hk', i', hi', hterm, hgoes⟩ := h.exists_goes hlisted
    obtain rfl := h.terminator_unique hk hk' hi hi' (by rw [hop]; rfl) hterm
    cases hi.symm.trans hi'
    refine ⟨hlisted, (hgoes b).2 ⟨0, by simp [htarget hop], ?_⟩⟩
    obtain ⟨o, ho, hlabel⟩ := Option.bind_eq_some_iff.1 ht
    have := targets_of_accepted h.accepted hk hi 0 (by simp [htarget hop])
    obtain ⟨c', hc', -⟩ := this
    obtain ⟨o', ho', hlabel'⟩ := Option.bind_eq_some_iff.1 hc'
    cases ho.symm.trans (operand_eq ho')
    cases hlabel.symm.trans hlabel'
    exact hc'
  · rintro ⟨hc, hx⟩
    obtain ⟨k, hk, i, hi, -, hgoes⟩ := h.exists_goes hc
    obtain ⟨place, hplace, ht⟩ := (hgoes b).1 hx
    obtain ⟨target, ht', hplain⟩ := targets_of_accepted h.accepted hk hi place hplace
    cases ht.symm.trans ht'
    obtain ⟨block, hblock, hpblock⟩ := mem_positions.1 hp
    have hop : i.op = .br := by
      by_contra hop
      obtain ⟨block', hblock', hsize⟩ := hplain hop
      cases hblock.symm.trans hblock'
      have := IdxRange.mem_toList.1 hpblock
      omega
    rw [htarget hop, List.mem_singleton] at hplace
    subst hplace
    obtain ⟨o, ho, hlabel⟩ := Option.bind_eq_some_iff.1 ht
    have hbranch : branchTarget s i = some b := by
      rw [branchTarget, ← Nat.add_zero i.operands.head, operand_eq ho]
      exact hlabel
    obtain ⟨v, hv⟩ := h.exists_handed hc hk hi hop hbranch hp
    exact List.mem_map.2 ⟨(v, c), h.arms.2 ⟨hc, k, hk, i, b, hi, hop, hbranch, hp, hv⟩, rfl⟩

/-- What comes of one member only. -/
theorem length_filterMap_le {α β γ : Type} {R : α → β → Prop} {g : β → Option γ} {a : α}
    {xs : List α} {ys : List β} (h : List.Forall₂ R xs ys) (hn : xs.Nodup)
    (hg : ∀ x ∈ xs, ∀ y, R x y → x ≠ a → g y = none) : (ys.filterMap g).length ≤ 1 := by
  induction h with
  | nil => simp
  | @cons x y xs ys hxy hrest ih =>
    obtain ⟨hx, hn⟩ := List.nodup_cons.1 hn
    by_cases hxa : x = a
    · have hnil : ys.filterMap g = [] := List.filterMap_eq_nil_iff.2 fun z hz => by
        obtain ⟨w, hw, hwz⟩ := forall₂_mem_right hrest hz
        exact hg w (.tail _ hw) z hwz fun he => hx (hxa ▸ he ▸ hw)
      rw [List.filterMap_cons, hnil]
      cases g y <;> simp
    · rw [List.filterMap_cons, hg x (List.mem_cons_self ..) y hxy hxa]
      exact ih hn fun w hw => hg w (.tail _ hw)

/-- One instruction adds one arm at most. -/
theorem Reached.length_arms (h : Done s fin) {before : List Step} {f c : Nat}
    {st st' : LlvmIrStorage} (hr : Reached s fin before (.instr f c iidx) st st')
    (ho : before ⊆ emissionOrder s) (p : BlockParamIdx) :
    ((emitStep s (.instr f c iidx) st).log.filterMap (armFor p)).length ≤ 1 := by
  obtain ⟨i, hi, hl⟩ := lowers_step hr.result hr.found
  rw [filterMap_armFor]
  generalize List.filter Event.isRequest _ = requests at hl ⊢
  cases hl with
  | skip | aliased => exact Nat.zero_le 1
  | build => exact Nat.zero_le 1
  | @br target block value arms hop htarget hblock hheld harms =>
    have hlisted := ((hr.heldAt ho hheld).listed htarget).2
    rw [List.filterMap_cons_none rfl]
    refine length_filterMap_le (a := p) harms (List.nodup_range' ..) ?_
    rintro q hq _ ⟨param, phi, v, hparam, hv, -, rfl⟩ hne
    obtain rfl := hr.phi h hlisted (mem_positions.2 ⟨block, hblock, hq⟩) hparam hv
    unfold armFor
    split <;> simp_all

/-- **A phi node has one arm for a block**, not two. -/
theorem Done.nodup_arms (h : Done s fin) (p : BlockParamIdx) :
    ((armsOf s p).map Prod.snd).Nodup := by
  obtain ⟨start, hs⟩ := h.exists_stages
  rw [armsOf, hs.emission, List.flatMap_map, List.map_flatMap, List.nodup_flatMap]
  constructor
  · intro x hx
    generalize hlog : (emitStep s x (start x)).log.filterMap (armFor p) = arms
    rcases arms with _ | ⟨⟨v, c⟩, arms⟩
    · simp
    · have harm : (v, c) ∈ (emitStep s x (start x)).log.filterMap (armFor p) := by simp [hlog]
      obtain ⟨f, -, iidx, -, -, rfl, -⟩ := hs.arm h hx harm
      obtain ⟨before, st', hsub, hr⟩ := hs.reached _ hx
      have hle := hr.length_arms h hsub p
      rw [hlog, List.length_cons] at hle
      rw [List.length_eq_zero_iff.1 (by omega : arms.length = 0)]
      simp
  · refine (nodup_emissionOrder s).pairwise_of_forall_ne fun x hx y hy hne c hcx hcy => hne ?_
    obtain ⟨⟨v, c⟩, hx', rfl⟩ := List.mem_map.1 hcx
    obtain ⟨⟨w, c'⟩, hy', hc⟩ := List.mem_map.1 hcy
    obtain rfl : c' = c := hc
    obtain ⟨f, hf, k, i, _, rfl, hcf, hk, hi, hop, -⟩ := hs.arm h hx hx'
    obtain ⟨g, hg, k', i', _, rfl, hcg, hk', hi', hop', -⟩ := hs.arm h hy hy'
    obtain rfl := h.unshared f hf g hg _ hcf hcg
    rw [h.terminator_unique hk hk' hi hi' (by rw [hop]; rfl) (by rw [hop']; rfl)]

/-! ## The module -/

/-- **The emitted module has the form of an LLVM module**: a block ends in its one terminator and
goes to blocks of the module, and a phi node has one arm for each block that goes to it. -/
theorem emittedModule_wellFormed (h : Done s fin) :
    (emittedModule s).WellFormed (Listed s) where
  terminated b hb := by
    obtain ⟨init, last, _, _, hinstrs, hinit, hlast, -⟩ := h.terminator hb
    exact ⟨init, last, hinstrs, hlast, hinit⟩
  targets b hb x hx c hc := by
    obtain ⟨k, hk, i, hi, -, hgoes⟩ := h.exists_goes hb
    obtain ⟨place, hplace, ht⟩ := (hgoes c).1 ⟨x, hx, hc⟩
    obtain ⟨j, hj⟩ := List.mem_iff_getElem?.1 hk
    obtain ⟨is, hbec⟩ := h.becomes hb hj hi
    exact hbec.listed hplace ht
  arms b hb phi hphi := by
    rw [h.phis hb, List.mem_map] at hphi
    obtain ⟨p, hp, rfl⟩ := hphi
    exact ⟨h.nodup_arms p, fun c => h.mem_arms hb hp⟩

theorem emittedModule_wellFormed_counting :
    (emittedModule counting).WellFormed (Listed counting) :=
  emittedModule_wellFormed counting_done

end Alcy.Codegen
