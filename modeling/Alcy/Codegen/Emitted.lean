import Alcy.Codegen.Settled
import Alcy.Lib.Unfold

/-! # The emitted module

The module that an emission leaves, from the names the maps have at its end: what each block lists
(`instrs_eq`), where functions begin, and which values reach a phi node from which block.
-/
namespace Alcy.Codegen

open Alcy.Ir Alcy.Lib Alcy.Lib.Traced Alcy.Lib.Llvm

variable {s : Storage} {fin : LlvmIrStorage}

/-- The instruction of a storage, in the module. -/
inductive Becomes (s : Storage) (fin : LlvmIrStorage) (iidx : InstructionIdx) (i : Instruction) :
    List LlvmInstr → Prop
  | skip (h : i.op = .noop ∨ i.op = .drop ∨ (discardable i.op = true ∧ i.dst = none)) :
      Becomes s fin iidx i []
  | aliased {dst : RegisterIdx} {v : Value}
      (h : i.op = .move ∨ (i.op = .typeCast ∧ SameTags s i)) (hdst : i.dst = some dst)
      (hv : NamesAt s fin i 0 v) (hname : fin.registers[dst]? = some (some v)) :
      Becomes s fin iidx i []
  | build {st : LlvmIrStorage} {vs : List Value} {indices : List (BitVec 32)}
      (hop : i.op ∉ [.noop, .drop, .move, .br]) (hcast : i.op = .typeCast → ¬ SameTags s i)
      (hdst : discardable i.op = true → i.dst ≠ none)
      (hvs : List.Forall₂ (NamesAt s fin i) (builtPlaces i) vs)
      (hindices : List.Forall₂ (indexBits s i) (indexPlaces i) indices)
      (helement : i.op = .getElementPtr → ∀ o r, s.operands[i.operands.head]? = some o →
        o.data = .register r → isAllocated s r = true → ∃ reg ty, s.registers[r]? = some reg ∧
          layout s reg.type = some ty ∧ st.allocaTypes[r]? = some (some ty))
      (hname : ∀ r, writesDst i.op = true → i.dst = some r →
        fin.registers[r]? = some (some (.instr iidx))) :
      Becomes s fin iidx i (llvmInstr s st iidx i vs indices).toList
  | br {target : BlockIdx} (hop : i.op = .br)
      (htarget : (s.operands[i.operands.head]?).bind Operand.asBlock = some target)
      (hlisted : Listed s target) : Becomes s fin iidx i [.br target]

/-! ## Instructions -/

section
variable {before : List Step} {step : Step} {st st' : LlvmIrStorage}

/-- An allocated pointer that is found has its element type. -/
theorem Reached.elementType (hv : verifyStorage s = .ok ()) (h : Reached s fin before step st st')
    (ho : before ⊆ emissionOrder s) {r : RegisterIdx} {v : Value}
    (hr : st.registers[r]? = some (some v)) (halloc : isAllocated s r = true) :
    ∃ reg ty, s.registers[r]? = some reg ∧ layout s reg.type = some ty ∧
      st.allocaTypes[r]? = some (some ty) := by
  obtain ⟨log, ht, hclean⟩ := h.tracks
  obtain ⟨d, hd, hdw⟩ := (ht.registers hclean r _ hr).1 rfl
  obtain ⟨block, hblock, hany⟩ := List.any_eq_true.1 halloc
  obtain ⟨i, hi, hinstr⟩ := List.any_eq_true.1 hany
  obtain ⟨instr, hinstr, hop⟩ := (Option.any_eq_true _ _).1 hinstr
  obtain ⟨hop, hdst⟩ := of_decide_eq_true hop
  obtain ⟨b, hb⟩ := List.mem_iff_getElem?.1 hblock
  obtain ⟨site, hsite, hmem, hdef, _, _⟩ := site_of_writes (ho hd) hdw
  have hsole := soleDefinition_of_accepted hv (Storage.mem_sites_instr hb hi)
    (show s.definition (.instr b i) = some r by simp [Storage.definition, hinstr, hdst])
  obtain rfl := (hsole site).1 ⟨hmem, hdef⟩
  exact h.allocated d hd r ⟨_, b, i, instr, hsite, hinstr, hop, hdst⟩

/-- What the step writes is there at the end. -/
theorem Reached.written (h : Reached s fin before step st st') {r : RegisterIdx} {v : Value}
    (hw : step.writes s = some r) (hst : st'.registers = st.registers.set r (some v)) :
    fin.registers[r]? = some (some v) := by
  obtain ⟨reads, writes, hs⟩ := emits_step step st
  obtain ⟨_, _, hlt, _, _⟩ := (hs.after () st' h.result).register r hw
  refine h.kept' r v ?_
  rw [hst, List.getElem?_set_self hlt]

/-- The instructions that the requests of a step ask for. -/
theorem filterMap_requested (step : Step) (st : LlvmIrStorage) (log : List Event) :
    log.filterMap (requested s step st) =
      (log.filter Event.isRequest).filterMap (requested s step st) := by
  rw [List.filterMap_filter]
  refine List.filterMap_congr fun e _ => ?_
  cases e <;> rfl

theorem mapM_some {α : Type} (l : List α) : l.mapM some = some l := by
  induction l with
  | nil => rfl
  | cons a l ih => rw [List.mapM_cons, ih]; rfl

/-- A request with its operands makes an instruction. -/
theorem filterMap_build {f b iidx : Nat} {i : Instruction} (hi : s.instrs[iidx]? = some i)
    (vs : List Value) (indices : List (BitVec 32)) :
    [Event.build iidx (vs.map some) indices].filterMap (requested s (.instr f b iidx) st) =
      (llvmInstr s st iidx i vs indices).toList := by
  have h : requested s (.instr f b iidx) st (.build iidx (vs.map some) indices) =
      llvmInstr s st iidx i vs indices := by
    simp [requested, hi, mapM_some]
  rw [List.filterMap_cons, h]
  cases llvmInstr s st iidx i vs indices <;> rfl

theorem appended_self (f b iidx : Nat) (st : LlvmIrStorage) :
    appended s b (.instr f b iidx, st) =
      (emitStep s (.instr f b iidx) st).log.filterMap (requested s (.instr f b iidx) st) :=
  if_pos rfl

/-- **What a step appends to its block.** -/
theorem becomes_appended {f b iidx : Nat} (hv : verifyStorage s = .ok ())
    (h : Reached s fin before (.instr f b iidx) st st') (ho : before ⊆ emissionOrder s) :
    ∃ i, s.instrs[iidx]? = some i ∧
      Becomes s fin iidx i (appended s b (.instr f b iidx, st)) := by
  obtain ⟨i, hi, hl⟩ := lowers_step h.result h.found
  refine ⟨i, hi, ?_⟩
  have hwrites {r : RegisterIdx} (hw : writesDst i.op = true) (hdst : i.dst = some r) :
      (Step.instr f b iidx).writes s = some r := by
    simp [Step.writes, hi, hw, hdst]
  rw [appended_self, filterMap_requested]
  generalize List.filter Event.isRequest _ = requests at hl ⊢
  cases hl with
  | skip hop => exact .skip hop
  | aliased hop hdst hval =>
    have hw : writesDst i.op = true := by rcases hop with hop | ⟨hop, _⟩ <;> rw [hop] <;> rfl
    exact .aliased hop hdst (h.heldAt ho hval) (h.written (hwrites hw hdst) rfl)
  | @build vs indices types hop hcast hdst hvs hindices htypes halloca =>
    rw [filterMap_build hi]
    refine .build hop hcast hdst (hvs.imp fun _ _ => h.heldAt ho) hindices
      (fun hgep o r hop hreg halloc => ?_) fun r hw hd => ?_
    · rw [builtPlaces, hgep] at hvs
      obtain ⟨v, _, hv0, _⟩ := List.forall₂_cons_left_iff.1 hvs
      rw [Codegen.heldAt, Nat.add_zero, hop, Option.bind_some, Codegen.held, hreg] at hv0
      exact h.elementType hv ho (join_eq_some hv0) halloc
    · refine h.written (hwrites hw hd) ?_
      rw [hw, hd]
      rfl
  | @br target block v arms hop htarget hblock hheld harms =>
    obtain ⟨o, ho', hnames⟩ := h.heldAt ho hheld
    obtain ⟨o', ho'', hlabel⟩ := Option.bind_eq_some_iff.1 htarget
    cases ho'.symm.trans ho''
    have hdata := asBlock_eq_some.1 hlabel
    rw [Names, hdata] at hnames
    obtain ⟨rfl, hlisted⟩ := hnames
    have harms : arms.filterMap (requested s (.instr f b iidx) st) = [] := by
      refine List.filterMap_eq_nil_iff.2 fun e he => ?_
      obtain ⟨p, _, _, _, _, _, _, _, rfl⟩ := forall₂_mem_right harms he
      rfl
    have hbuild : llvmInstr s st iidx i [.block target] [] = some (.br target) := by
      simp [llvmInstr, hop, asLabel]
    rw [← List.singleton_append, List.filterMap_append, harms, List.append_nil,
      show [some (Value.block target)] = [Value.block target].map some from rfl,
      filterMap_build hi, hbuild]
    exact .br hop htarget hlisted

/-! ## Phi nodes -/

theorem yields_tell {e : Event} (h : e.isRequest = false) :
    Yields st (Traced.tell e) fun _ l st' => l = [] ∧ st' = st := by
  intro u st' hr _
  cases hr
  exact ⟨by simp [Traced.tell, h], rfl⟩

/-- A parameter gets its phi node. -/
theorem yields_phi (p : BlockParamIdx) : Yields st (emitPhi s p) fun _ l st' => l = [] ∧
    ∃ param, s.blockParams[p]? = some param ∧
      st'.registers = st.registers.set param.reg (some (.phi p)) := by
  unfold emitPhi
  refine Finds.bind finds_fetch fun param hparam => Finds.bind finds_type fun ty _ => ?_
  refine Yields.bind (yields_tell rfl) ?_
  rintro _ _ _ ⟨rfl, rfl⟩
  refine (yields_addRegister param.reg (.phi p)).mono ?_
  rintro _ _ _ ⟨rfl, rfl⟩
  exact ⟨rfl, param, hparam, rfl⟩

/-- Entering a block moves the insertion point. -/
theorem yields_enter (b : BlockIdx) : Yields st (do let _ ← enterBlock s b) fun _ l st' =>
    l = [] ∧ ∃ v, st.blocks[b]? = some (some v) ∧ st'.insertBlock = some v := by
  simp only [enterBlock, setInsertPoint, bind_assoc, pure_bind, bind_pure_unit]
  refine Finds.bind finds_fetch fun _ _ => Finds.bind (finds_map LlvmIrStorage.blocks
    (.blockValue b) (fun _ => rfl) (fun _ h => h) b) fun found hfound => ?_
  obtain ⟨v, rfl, hv⟩ := some_of_found hfound
  intro u st' hr _
  cases hr
  exact ⟨rfl, v, join_eq_some hv, rfl⟩

/-- The steps that are not instructions ask for none, and add no arms. -/
theorem yields_declare {step : Step} (h : ∀ f b i, step ≠ .instr f b i) :
    Yields st (emitStep s step) fun _ l _ => l = [] := by
  have hmodify {g : LlvmIrStorage → LlvmIrStorage} {st : LlvmIrStorage} :
      Yields st (Traced.modify g) fun _ l _ => l = [] := by
    intro u st' hr _
    cases hr
    rfl
  have hdeclared {g : LlvmIrStorage → LlvmIrStorage} {e : Event} {st : LlvmIrStorage}
      (he : e.isRequest = false) :
      Yields st (do Traced.tell e; Traced.modify g) fun _ l _ => l = [] := by
    refine Yields.bind (yields_tell he) ?_
    rintro _ _ _ ⟨rfl, rfl⟩
    exact hmodify
  cases step with
  | declareFunction f =>
    simp only [emitStep, declareFunction, createFunction, bind_assoc, pure_bind, bind_pure_unit]
    exact Finds.bind finds_fetch fun _ _ => Finds.bind (Finds.mapM fun _ _ => finds_type)
      fun _ _ => Finds.bind finds_type fun _ _ => Finds.bind finds_get fun _ _ =>
      Finds.bind finds_fetch fun _ _ => hdeclared rfl
  | declareBlock f b =>
    exact Finds.bind finds_get fun _ _ => Finds.bind finds_fetch fun _ _ => hdeclared rfl
  | enterPhis f b | enterBody f b => exact (yields_enter b).mono fun _ _ _ h => h.1
  | phi f b p => exact (yields_phi p).mono fun _ _ _ h => h.1
  | instr f b i => exact absurd rfl (h f b i)

end

/-- In a block, the insertion point stays at its end. -/
theorem insertBlock_walk {f b : Nat} {A : List Step} {done : List InstructionIdx}
    {log : List Event} {st₀ st : LlvmIrStorage} (hn : Named st₀) (hf : ∀ e ∈ log, e.Found)
    (hw : Walk (emitStep s) (A ++ .enterBody f b :: done.map (.instr f b)) st₀ log st) :
    st.insertBlock = some (.block b) := by
  generalize hsteps : A ++ .enterBody f b :: done.map (.instr f b) = steps at hw
  induction hw generalizing done with
  | nil => simp at hsteps
  | @snoc steps st₀ st₁ st₂ log step hbefore last ih =>
    obtain ⟨h₁, h₂⟩ := List.forall_mem_append.1 hf
    rcases List.eq_nil_or_concat done with rfl | ⟨done, i, rfl⟩
    · obtain ⟨rfl, rfl⟩ := List.append_singleton_inj.1 hsteps
      obtain ⟨-, v, hv, hst⟩ := yields_enter b () st₂ last h₂
      rw [hst, (hn.walk hbefore).blocks b v hv]
    · rw [List.concat_eq_append, List.map_append, ← List.cons_append, ← List.append_assoc] at hsteps
      obtain ⟨hinit, rfl⟩ := List.append_singleton_inj.1 hsteps
      have hold := ih hn h₁ hinit
      obtain ⟨instr, hi, hl⟩ := lowers_step last h₂
      rw [← hold]
      generalize List.filter Event.isRequest _ = requests at hl
      cases hl <;> rfl

/-! ## What the module lists -/

theorem instr_mem {f b i : Nat} (hf : f < s.functions.length) (hb : b ∈ blocksOf s f)
    (hi : i ∈ positions s.blocks b Block.instrs) : .instr f b i ∈ emissionOrder s :=
  mem_emissionOrder.2 ⟨hf, mem_functionSteps.2 (.inr (.inr (.inr
    ⟨b, hb, mem_bodySteps.2 (.inr ⟨i, hi, rfl⟩)⟩)))⟩

theorem phi_mem {f b p : Nat} (hf : f < s.functions.length) (hb : b ∈ blocksOf s f)
    (hp : p ∈ positions s.blocks b Block.blockParams) : .phi f b p ∈ emissionOrder s :=
  mem_emissionOrder.2 ⟨hf, mem_functionSteps.2 (.inr (.inr (.inl
    ⟨b, hb, mem_phiSteps.2 (.inr ⟨p, hp, rfl⟩)⟩)))⟩

/-- The steps of a body follow one another. -/
theorem exists_body {f b i : Nat} (hf : f < s.functions.length) (hb : b ∈ blocksOf s f)
    (hi : i ∈ positions s.blocks b Block.instrs) :
    ∃ (A : List Step) (done : List InstructionIdx) (after : List Step), emissionOrder s =
      (A ++ .enterBody f b :: done.map (.instr f b)) ++ .instr f b i :: after := by
  have hinfix : bodySteps s f b <:+: emissionOrder s := by
    have hbody : bodySteps s f b <:+: ((blocksOf s f).map (bodySteps s f)).flatten :=
      List.infix_of_mem_flatten (List.mem_map_of_mem hb)
    have hfunction : functionSteps s f <:+: ((List.range _).map (functionSteps s)).flatten :=
      List.infix_of_mem_flatten (List.mem_map_of_mem (List.mem_range.2 hf))
    refine hbody.trans (.trans ?_ hfunction)
    exact ((List.suffix_append ..).trans (List.suffix_cons ..)).isInfix
  obtain ⟨A, B, ho⟩ := hinfix
  obtain ⟨done, rest, hpos⟩ := List.append_of_mem hi
  refine ⟨A, done, rest.map (.instr f b) ++ B, ?_⟩
  rw [← ho, bodySteps, hpos]
  simp

/-- **The stages of an emission that is done**, by their steps. -/
structure Stages (s : Storage) (fin : LlvmIrStorage) (start : Step → LlvmIrStorage) : Prop where
  emission : emission s = (emissionOrder s).map fun x => (x, start x)
  reached : ∀ x ∈ emissionOrder s, ∃ before st', before ⊆ emissionOrder s ∧
    Reached s fin before x (start x) st'
  insertBlock : ∀ f b i, .instr f b i ∈ emissionOrder s →
    (start (.instr f b i)).insertBlock = some (.block b)

theorem Done.exists_stages (h : Done s fin) : ∃ start, Stages s fin start := by
  obtain ⟨start, hrun, hstage⟩ := h.stages
  refine ⟨start, hrun, fun x hx => ?_, fun f b i hx => ?_⟩
  · obtain ⟨before, after, ho⟩ := List.append_of_mem hx
    obtain ⟨st', hr⟩ := hstage before x after ho
    exact ⟨before, st', fun y hy => ho ▸ List.mem_append_left _ hy, hr⟩
  · obtain ⟨hf, hm⟩ := mem_emissionOrder.1 hx
    have hbi : b ∈ blocksOf s f ∧ i ∈ positions s.blocks b Block.instrs := by
      simpa [mem_functionSteps, mem_phiSteps, mem_bodySteps, Step.func] using hm
    obtain ⟨A, done, after, ho⟩ := exists_body hf hbi.1 hbi.2
    obtain ⟨st', hr⟩ := hstage _ _ after ho
    obtain ⟨st₀, log, hw, hn, hfound⟩ := hr.walked
    exact insertBlock_walk hn hfound hw

/-- The values that reach the phi node of a parameter, with the blocks they come from. -/
def armsOf (s : Storage) (p : BlockParamIdx) : List (Value × BlockIdx) :=
  (emission s).flatMap fun stage => (emitStep s stage.1 stage.2).log.filterMap (armFor p)

theorem emitted_entry (f : FunctionIdx) :
    (emittedModule s).entry f = (emission s).findSome? (declaredBlock f) := rfl

theorem emitted_instrs (b : BlockIdx) :
    ((emittedModule s).block b).instrs = (emission s).flatMap (appended s b) := rfl

theorem emitted_phis (b : BlockIdx) : ((emittedModule s).block b).phis =
    ((emission s).filterMap (phiFor b)).map fun p => (.phi p, armsOf s p) := rfl

/-- **The instructions of a block**, one after the other. -/
theorem Done.instrs (h : Done s fin) {b : BlockIdx} (hb : Listed s b) :
    ∃ iss : List (List LlvmInstr), ((emittedModule s).block b).instrs = iss.flatten ∧
      List.Forall₂ (fun iidx is => ∃ i, s.instrs[iidx]? = some i ∧ Becomes s fin iidx i is)
        (positions s.blocks b Block.instrs) iss := by
  obtain ⟨f, hf, hb⟩ := hb
  obtain ⟨start, hs⟩ := h.exists_stages
  refine ⟨(positions s.blocks b Block.instrs).map fun i =>
    appended s b (.instr f b i, start (.instr f b i)), ?_, ?_⟩
  · rw [emitted_instrs, hs.emission, List.flatMap_map, ← List.flatMap_def,
      flatMap_instrs h.unshared hf hb]
    intro step hstep
    cases step with
    | instr f' b' i => exact if_neg fun he => hstep f' i (by rw [he])
    | _ => rfl
  · rw [List.forall₂_map_right_iff, List.forall₂_same]
    intro i hi
    obtain ⟨before, st', hsub, hr⟩ := hs.reached _ (instr_mem hf hb hi)
    exact becomes_appended h.accepted hr hsub

/-- **The phi nodes of a block**, one for each parameter. -/
theorem Done.phis (h : Done s fin) {b : BlockIdx} (hb : Listed s b) :
    ((emittedModule s).block b).phis =
      (positions s.blocks b Block.blockParams).map fun p => (.phi p, armsOf s p) := by
  obtain ⟨f, hf, hb⟩ := hb
  obtain ⟨start, hs⟩ := h.exists_stages
  rw [emitted_phis, hs.emission, List.filterMap_map, List.filterMap_eq_flatMap_toList,
    flatMap_phis h.unshared hf hb]
  · simp [phiFor]
  · intro step hstep
    cases step with
    | phi f' b' p => exact congrArg Option.toList (if_neg fun he => hstep f' p (by rw [he]))
    | _ => rfl

/-- **The entry of a function** is its first block. -/
theorem Done.entry (h : Done s fin) {f : FunctionIdx} (hf : f < s.functions.length) :
    (emittedModule s).entry f = (blocksOf s f).head? := by
  obtain ⟨start, hs⟩ := h.exists_stages
  have hnil {l : List Step} (hl : ∀ x ∈ l, ∀ f' b, x ≠ .declareBlock f' b) :
      l.flatMap (fun step => (declaredBlock f (step, start step)).toList) = [] := by
    refine List.flatMap_eq_nil_iff.2 fun x hx => ?_
    cases x with
    | declareBlock f' b => exact absurd rfl (hl _ hx f' b)
    | _ => rfl
  have hg (f' : FunctionIdx) : (functionSteps s f').flatMap (fun step =>
      (declaredBlock f (step, start step)).toList) = if f' = f then blocksOf s f' else [] := by
    have hphis : (blocksOf s f').flatMap (fun b => (phiSteps s f' b).flatMap fun step =>
        (declaredBlock f (step, start step)).toList) = [] :=
      List.flatMap_eq_nil_iff.2 fun b _ => hnil fun x hx f'' b' he => by
        simp [mem_phiSteps, he] at hx
    have hbodies : (blocksOf s f').flatMap (fun b => (bodySteps s f' b).flatMap fun step =>
        (declaredBlock f (step, start step)).toList) = [] :=
      List.flatMap_eq_nil_iff.2 fun b _ => hnil fun x hx f'' b' he => by
        simp [mem_bodySteps, he] at hx
    rw [flatMap_functionSteps, hphis, hbodies, List.append_nil, List.append_nil]
    by_cases hf' : f' = f <;> simp [declaredBlock, hf']
  rw [emitted_entry, hs.emission, ← List.head?_filterMap, List.filterMap_map,
    List.filterMap_eq_flatMap_toList, emissionOrder, List.flatMap_assoc]
  congr 1
  rw [flatMap_single List.nodup_range (List.mem_range.2 hf) fun f' _ hne => ?_]
  · exact (hg f).trans (if_pos rfl)
  · exact (hg f').trans (if_neg hne)

/-! ## Arms -/

/-- The register of a parameter is its phi node. -/
theorem Done.phi (h : Done s fin) {b p : Nat} (hb : Listed s b)
    (hp : p ∈ positions s.blocks b Block.blockParams) : ∃ param, s.blockParams[p]? = some param ∧
      fin.registers[param.reg]? = some (some (.phi p)) := by
  obtain ⟨f, hf, hb⟩ := hb
  obtain ⟨start, hs⟩ := h.exists_stages
  obtain ⟨before, st', hsub, hr⟩ := hs.reached _ (phi_mem hf hb hp)
  obtain ⟨-, param, hparam, hst⟩ := yields_phi p () st' hr.result hr.found
  exact ⟨param, hparam, hr.written (by rw [Step.writes, hparam]; rfl) hst⟩

theorem NamesAt.unique {i : Instruction} {k : Nat} {v w : Value} (hv : NamesAt s fin i k v)
    (hw : NamesAt s fin i k w) : v = w := by
  obtain ⟨o, ho, hv⟩ := hv
  obtain ⟨o', ho', hw⟩ := hw
  cases ho.symm.trans ho'
  unfold Names at hv hw
  cases hd : o.data <;> rw [hd] at hv hw <;> simp_all

/-- The target of a branch. -/
def branchTarget (s : Storage) (i : Instruction) : Option BlockIdx :=
  (s.operands[i.operands.head]?).bind Operand.asBlock

theorem NamesAt.listed {i : Instruction} {v : Value} {target : BlockIdx} (h : NamesAt s fin i 0 v)
    (ht : branchTarget s i = some target) : v = .block target ∧ Listed s target := by
  obtain ⟨o, ho, hnames⟩ := h
  obtain ⟨o', ho', hlabel⟩ := Option.bind_eq_some_iff.1 ht
  cases ho.symm.trans ho'
  have hdata := asBlock_eq_some.1 hlabel
  rwa [Names, hdata] at hnames

/-- A branch of the block hands the value over to the parameter. -/
def HandsOver (s : Storage) (fin : LlvmIrStorage) (p : BlockParamIdx) (v : Value) (c : BlockIdx) :
    Prop :=
  Listed s c ∧ ∃ iidx ∈ positions s.blocks c Block.instrs, ∃ i target, s.instrs[iidx]? = some i ∧
    i.op = .br ∧ branchTarget s i = some target ∧
    p ∈ positions s.blocks target Block.blockParams ∧ NamesAt s fin i (1 + p) v

/-- The value that a parameter's register is found to be, is its phi node. -/
theorem Reached.phi (h : Done s fin) {before : List Step} {step : Step} {st st' : LlvmIrStorage}
    (hr : Reached s fin before step st st') {b : BlockIdx} {q : BlockParamIdx} (hb : Listed s b)
    (hq : q ∈ positions s.blocks b Block.blockParams) {param : BlockParam} {v : Value}
    (hparam : s.blockParams[q]? = some param) (hv : (st.registers[param.reg]?).join = some v) :
    v = .phi q := by
  obtain ⟨param', hparam', hname⟩ := h.phi hb hq
  cases hparam.symm.trans hparam'
  exact Option.some.inj (Option.some.inj ((hr.kept _ _ (join_eq_some hv)).symm.trans hname))

/-- The arms of the node are among the requests. -/
theorem filterMap_armFor (p : BlockParamIdx) (log : List Event) :
    log.filterMap (armFor p) = (log.filter Event.isRequest).filterMap (armFor p) := by
  rw [List.filterMap_filter]
  refine List.filterMap_congr fun e _ => ?_
  cases e <;> rfl

/-- The arms that one instruction adds. -/
theorem Reached.arms (h : Done s fin) {before : List Step} {f c iidx : Nat}
    {st st' : LlvmIrStorage} (hr : Reached s fin before (.instr f c iidx) st st')
    (ho : before ⊆ emissionOrder s) (hinsert : st.insertBlock = some (.block c))
    {p : BlockParamIdx} {v : Value} {b : BlockIdx} :
    (v, b) ∈ (emitStep s (.instr f c iidx) st).log.filterMap (armFor p) ↔
      b = c ∧ ∃ i target, s.instrs[iidx]? = some i ∧ i.op = .br ∧
        branchTarget s i = some target ∧ p ∈ positions s.blocks target Block.blockParams ∧
        NamesAt s fin i (1 + p) v := by
  obtain ⟨i, hi, hl⟩ := lowers_step hr.result hr.found
  rw [filterMap_armFor]
  generalize List.filter Event.isRequest _ = requests at hl ⊢
  have hnot (hop : i.op ≠ .br) : ¬ (b = c ∧ ∃ i target, s.instrs[iidx]? = some i ∧ i.op = .br ∧
      branchTarget s i = some target ∧ p ∈ positions s.blocks target Block.blockParams ∧
      NamesAt s fin i (1 + p) v) := by
    rintro ⟨-, i', target, hi', hop', -⟩
    cases hi.symm.trans hi'
    exact hop hop'
  cases hl with
  | skip hop =>
    refine iff_of_false List.not_mem_nil (hnot ?_)
    rcases hop with hop | hop | ⟨hop, -⟩
    · simp [hop]
    · simp [hop]
    · exact fun hbr => by simp [hbr, discardable] at hop
  | aliased hop => exact iff_of_false List.not_mem_nil (hnot (by rcases hop with h | ⟨h, -⟩ <;> simp [h]))
  | build hop => exact iff_of_false List.not_mem_nil (hnot fun hbr => hop (by simp [hbr]))
  | @br target block value arms hop htarget hblock hheld harms =>
    have hlisted := ((hr.heldAt ho hheld).listed htarget).2
    have hphi {q : BlockParamIdx} {param : BlockParam} {phi : Value}
        (hq : q ∈ block.blockParams.toList) (hparam : s.blockParams[q]? = some param)
        (hv : (st.registers[param.reg]?).join = some phi) : phi = .phi q :=
      hr.phi h hlisted (mem_positions.2 ⟨block, hblock, hq⟩) hparam hv
    rw [List.mem_filterMap]
    constructor
    · rintro ⟨e, he, harm⟩
      rcases List.mem_cons.1 he with rfl | he
      · cases harm
      obtain ⟨q, hq, param, phi, w, hparam, hregister, hw, rfl⟩ := forall₂_mem_right harms he
      obtain rfl := hphi hq hparam hregister
      rw [hinsert, armFor] at harm
      split at harm
      · next hqp =>
        cases harm
        subst hqp
        exact ⟨rfl, i, target, hi, hop, htarget, mem_positions.2 ⟨block, hblock, hq⟩,
          hr.heldAt ho hw⟩
      · cases harm
    · rintro ⟨rfl, i', target', hi', -, htarget', hp, hnames⟩
      cases hi.symm.trans hi'
      cases htarget.symm.trans htarget'
      obtain ⟨block', hblock', hp⟩ := mem_positions.1 hp
      cases hblock.symm.trans hblock'
      obtain ⟨e, he, param, phi, w, hparam, hregister, hw, rfl⟩ := forall₂_mem_left harms hp
      obtain rfl := hphi hp hparam hregister
      refine ⟨_, .tail _ he, ?_⟩
      rw [hinsert, armFor, if_pos rfl, hnames.unique (hr.heldAt ho hw)]

/-- An arm is added by a branch at the end of its block. -/
theorem Stages.arm (h : Done s fin) {start : Step → LlvmIrStorage} (hs : Stages s fin start)
    {x : Step} (hx : x ∈ emissionOrder s) {p : BlockParamIdx} {v : Value} {c : BlockIdx}
    (harm : (v, c) ∈ (emitStep s x (start x)).log.filterMap (armFor p)) :
    ∃ f < s.functions.length, ∃ iidx i target, x = .instr f c iidx ∧ c ∈ blocksOf s f ∧
      iidx ∈ positions s.blocks c Block.instrs ∧ s.instrs[iidx]? = some i ∧ i.op = .br ∧
      branchTarget s i = some target ∧ p ∈ positions s.blocks target Block.blockParams ∧
      NamesAt s fin i (1 + p) v := by
  obtain ⟨before, st', hsub, hr⟩ := hs.reached x hx
  by_cases hinstr : ∃ f b i, x = .instr f b i
  · obtain ⟨f, b, iidx, rfl⟩ := hinstr
    obtain ⟨rfl, i, target, hbranch⟩ := (hr.arms h hsub (hs.insertBlock f b iidx hx)).1 harm
    obtain ⟨hf, hm⟩ := mem_emissionOrder.1 hx
    have hbi : c ∈ blocksOf s f ∧ iidx ∈ positions s.blocks c Block.instrs := by
      simpa [mem_functionSteps, mem_phiSteps, mem_bodySteps, Step.func] using hm
    exact ⟨f, hf, iidx, i, target, rfl, hbi.1, hbi.2, hbranch⟩
  · have hnone := yields_declare (fun f b i he => hinstr ⟨f, b, i, he⟩) () st' hr.result hr.found
    rw [filterMap_armFor, hnone, List.filterMap_nil] at harm
    exact absurd harm List.not_mem_nil

/-- **The arms of a phi node** are the branches that hand a value over to its parameter. -/
theorem Done.arms (h : Done s fin) {p : BlockParamIdx} {v : Value} {c : BlockIdx} :
    (v, c) ∈ armsOf s p ↔ HandsOver s fin p v c := by
  obtain ⟨start, hs⟩ := h.exists_stages
  rw [armsOf, hs.emission, List.flatMap_map, List.mem_flatMap]
  constructor
  · rintro ⟨x, hx, harm⟩
    obtain ⟨f, hf, iidx, i, target, rfl, hc, hpos, hbranch⟩ := hs.arm h hx harm
    exact ⟨⟨f, hf, hc⟩, iidx, hpos, i, target, hbranch⟩
  · rintro ⟨⟨f, hf, hc⟩, iidx, hi, i, target, hbranch⟩
    have hx := instr_mem hf hc hi
    obtain ⟨before, st', hsub, hr⟩ := hs.reached _ hx
    exact ⟨_, hx, (hr.arms h hsub (hs.insertBlock f c iidx hx)).2 ⟨rfl, i, target, hbranch⟩⟩

end Alcy.Codegen
