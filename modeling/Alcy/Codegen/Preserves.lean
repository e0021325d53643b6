import Alcy.Codegen.Points

/-! # The emitter preserves meaning

A run of a storage and a run of the module emitted for it, side by side. The registers that are
assigned on every way to the point have in the storage the values that their names have in the
module (`At`). Each instruction keeps this (`rel_step`), so the runs end alike.
-/
namespace Alcy.Codegen

open Alcy.Ir Alcy.Lib Alcy.Lib.Assignment Alcy.Lib.Blocks Alcy.Lib.Llvm

variable {s : Storage} {fin : LlvmIrStorage} {F P ω : Type} {l : Llvm F P ω}

abbrev ModuleState (F P ω : Type) := State Value BlockIdx F P ω

/-- A run of the storage and a run of the module, both before instruction `j` of the block. -/
structure At (s : Storage) (fin : LlvmIrStorage) (l : Llvm F P ω) (e b : BlockIdx) (j : Nat)
    (fr : Frame F P ω) (st : ModuleState F P ω) : Prop where
  path : ∃ left, Path (Onward s) (e, 0) left (b, j + 1)
  current : st.current = b
  world : st.world = fr.world
  constants : ∀ k, st.env (.immutable k) = constantValue s l (.immutable k)
  agree : ∀ r, Available s e (b, j + 1) r → ∀ a, fr.regs r = some a →
    ∃ v, nameOf fin r = some v ∧ st.env v = some a

/-- The rest of a block, in the storage and in the module. -/
def Rel (s : Storage) (fin : LlvmIrStorage) (l : Llvm F P ω) (rest : List InstructionIdx)
    (rest' : List LlvmInstr) (fr : Frame F P ω) (st : ModuleState F P ω) : Prop :=
  ∃ e b j iss, Starts s e ∧ At s fin l e b j fr st ∧
    rest = (positions s.blocks b Block.instrs).drop j ∧ rest' = List.flatten iss ∧
    List.Forall₂ (fun iidx is => ∃ i, s.instrs[iidx]? = some i ∧ Becomes s fin iidx i is) rest iss

variable {e b : BlockIdx} {j : Nat} {fr fr' : Frame F P ω} {st st' : ModuleState F P ω}

section
variable {iidx : InstructionIdx} {i : Instruction}

/-! ## Moving on -/

/-- To the next instruction. -/
theorem At.next (hat : At s fin l e b j fr st) (hcurrent : st'.current = st.current)
    (hworld : st'.world = fr'.world)
    (hconstants : ∀ k, st'.env (.immutable k) = st.env (.immutable k))
    (hagree : ∀ r, Available s e (b, j + 1) r ∨ Assigns s (b, j + 1) r → ∀ a,
      fr'.regs r = some a → ∃ v, nameOf fin r = some v ∧ st'.env v = some a) :
    At s fin l e b (j + 1) fr' st' where
  path := by
    obtain ⟨left, hp⟩ := hat.path
    exact ⟨_, hp.step (.next b (j + 1))⟩
  current := hcurrent.trans hat.current
  world := hworld
  constants k := (hconstants k).trans (hat.constants k)
  agree r hr := hagree r (assigned_of_edge (.next b (j + 1)) hr)

/-- The site of an instruction. -/
theorem site_at (hpos : (positions s.blocks b Block.instrs)[j]? = some iidx) :
    .instr b iidx ∈ sitesAt s (b, j + 1) :=
  List.mem_map_of_mem (Option.mem_toList.2 hpos)

/-- What an instruction assigns is its destination. -/
theorem dst_of_assigns (hpos : (positions s.blocks b Block.instrs)[j]? = some iidx)
    (hi : s.instrs[iidx]? = some i) {r : RegisterIdx} (hr : Assigns s (b, j + 1) r) :
    i.dst = some r ∧ writesDst i.op = true := by
  obtain ⟨d, hd, hdef, hy⟩ := hr
  obtain ⟨iidx', hpos', rfl⟩ := List.mem_map.1 hd
  cases hpos.symm.trans (Option.mem_toList.1 hpos')
  refine ⟨?_, writes_of_yields hi hy⟩
  rwa [Storage.definition, hi, Option.bind_some] at hdef

/-- Past an instruction of which nothing is left. -/
theorem At.skip (hat : At s fin l e b j fr st)
    (hnone : ∀ r, ¬ Assigns s (b, j + 1) r) : At s fin l e b (j + 1) fr st :=
  hat.next rfl hat.world (fun _ => rfl) fun r hr => hat.agree r (hr.resolve_right (hnone r))

/-- Past an instruction whose result is there already. -/
theorem At.aliased (hat : At s fin l e b j fr st)
    (hpos : (positions s.blocks b Block.instrs)[j]? = some iidx) (hi : s.instrs[iidx]? = some i)
    {dst : RegisterIdx} {v : Value} {a : Val F P} (hdst : i.dst = some dst)
    (hname : nameOf fin dst = some v) (henv : st.env v = some a) :
    At s fin l e b (j + 1) ⟨Function.update fr.regs dst (some a), fr.world⟩ st := by
  refine hat.next rfl hat.world (fun _ => rfl) fun r hr c hc => ?_
  simp only at hc
  by_cases hrd : r = dst
  · subst hrd
    rw [Function.update_self] at hc
    exact ⟨v, hname, hc ▸ henv⟩
  · rw [Function.update_of_ne hrd] at hc
    rcases hr with hr | hr
    · exact hat.agree r hr c hc
    · exact absurd (Option.some.inj ((dst_of_assigns hpos hi hr).1.symm.trans hdst)) hrd

/-- Past an instruction that is built, whatever its result. -/
theorem At.built (h : Relied s fin) (he : Starts s e) (hat : At s fin l e b j fr st)
    (hpos : (positions s.blocks b Block.instrs)[j]? = some iidx) (hi : s.instrs[iidx]? = some i)
    (hname : ∀ r, writesDst i.op = true → i.dst = some r →
      fin.registers[r]? = some (some (.instr iidx))) (result : Option (Val F P)) (world : ω) :
    At s fin l e b (j + 1)
      ⟨i.dst.elim fr.regs fun dst => Function.update fr.regs dst result, world⟩
      (st.bind (.instr iidx) result world) := by
  obtain ⟨left, hp⟩ := hat.path
  have hsite := site_at (s := s) hpos
  refine hat.next rfl rfl (fun k => ?_) fun r hr c hc => ?_
  · rw [State.bind_env, Function.update_of_ne (by simp)]
  rw [State.bind_env]
  simp only at hc
  by_cases hrd : i.dst = some r
  · have hw : writesDst i.op = true := by
      rcases hr with hr | hr
      · exact writes_of_yields hi (assigned_site h.done.accepted hp (sitesAt_mem hsite).1
          (by rw [Storage.definition, hi]; exact hrd) hr)
      · exact (dst_of_assigns hpos hi hr).2
    rw [hrd, Option.elim_some, Function.update_self] at hc
    exact ⟨_, nameOf_eq (hname r hw hrd), by rw [Function.update_self, hc]⟩
  · have hr : Available s e (b, j + 1) r :=
      hr.resolve_right fun hr => hrd (dst_of_assigns hpos hi hr).1
    have hold : fr.regs r = some c := by
      cases hdst : i.dst with
      | none => rwa [hdst] at hc
      | some dst =>
        have hne : r ≠ dst := fun heq => hrd (heq ▸ hdst)
        rwa [hdst, Option.elim_some, Function.update_of_ne hne] at hc
    obtain ⟨v, hv, henv⟩ := hat.agree r hr c hold
    have hne : v ≠ .instr iidx := fun he' =>
      h.name_fresh he hp hsite hr (by rw [hv, he']; rfl)
    exact ⟨v, hv, by rw [Function.update_of_ne hne, henv]⟩

/-! ## Branches -/

section
variable {target : BlockIdx}

/-- The phi node of a parameter takes the value of the arm for the block control comes from. -/
theorem phiEnv_phi (h : Done s fin) (ht : Listed s target) {p : BlockParamIdx}
    (hp : p ∈ positions s.blocks target Block.blockParams) :
    phiEnv (emittedModule s) st target (.phi p) =
      ((armsOf s p).find? fun arm => arm.2 = st.current).bind fun arm => st.env arm.1 := by
  have hfind : (((emittedModule s).block target).phis.find? fun phi => phi.1 = Value.phi p) =
      some (.phi p, armsOf s p) := by
    rw [h.phis ht]
    generalize positions s.blocks target Block.blockParams = params at hp
    induction params with
    | nil => exact nomatch hp
    | cons q params ih =>
      rw [List.map_cons, List.find?_cons]
      by_cases hq : q = p
      · simp [hq]
      · simpa [hq] using ih ((List.mem_cons.1 hp).resolve_left (Ne.symm hq))
  rw [phiEnv, hfind]

/-- Other values are as they were. -/
theorem phiEnv_other (h : Done s fin) (ht : Listed s target) {v : Value}
    (hv : ∀ p ∈ positions s.blocks target Block.blockParams, v ≠ .phi p) :
    phiEnv (emittedModule s) st target v = st.env v := by
  have hfind : (((emittedModule s).block target).phis.find? fun phi => phi.1 = v) = none := by
    rw [h.phis ht, List.find?_eq_none]
    intro phi hphi
    obtain ⟨p, hp, rfl⟩ := List.mem_map.1 hphi
    simpa using (hv p hp).symm
  rw [phiEnv, hfind]

/-- To another block, whose parameters get the arguments. -/
theorem At.goto (h : Relied s fin) (he : Starts s e) (hat : At s fin l e b j fr st)
    (hedge : Onward s (b, j + 1) (target, 0)) (hnone : ∀ r, ¬ Assigns s (b, j + 1) r)
    {block : Block} (hblock : s.blocks[target]? = some block) {args : List (Val F P)}
    (hsize : block.blockParams.size = args.length)
    (hargs : ∀ p a, (p, a) ∈ block.blockParams.toList.zip args →
      phiEnv (emittedModule s) st target (.phi p) = some a) :
    At s fin l e target 0
      { fr with regs := bindParams s fr.regs block.blockParams.toList args }
      { st with env := phiEnv (emittedModule s) st target, current := target } := by
  obtain ⟨left, hp⟩ := hat.path
  have hp₀ := hp.step hedge
  have ht : Listed s target := h.done.listed_of_path he hp₀
  have hpositions : positions s.blocks target Block.blockParams = block.blockParams.toList := by
    rw [positions, hblock]
    rfl
  refine ⟨⟨_, hp₀.step (.next target 0)⟩, rfl, hat.world, fun k => ?_, fun r hr a ha => ?_⟩
  · exact (phiEnv_other h.done ht fun p _ => by simp).trans (hat.constants k)
  simp only [bindParams] at ha
  split at ha
  · next x hx =>
    cases ha
    have hreg : (s.blockParams[x.1]?).map BlockParam.reg = some r := by
      simpa using List.find?_some hx
    have hmem := List.mem_of_find?_eq_some hx
    have hparam := (List.of_mem_zip hmem).1
    obtain ⟨param, hparam', hname⟩ := h.done.phi ht (hpositions ▸ hparam)
    rw [hparam', Option.map_some, Option.some.injEq] at hreg
    exact ⟨_, nameOf_eq (hreg ▸ hname), hargs x.1 x.2 hmem⟩
  · next hnot =>
    have hparam (p : BlockParamIdx) (hp : p ∈ block.blockParams.toList) :
        (s.blockParams[p]?).map BlockParam.reg ≠ some r := by
      obtain ⟨n, hn⟩ := List.mem_iff_getElem?.1 hp
      have hlength : block.blockParams.toList.length = block.blockParams.size := List.length_range'
      have hlt : n < args.length := by
        rw [← hsize, ← hlength]
        exact (List.getElem?_eq_some_iff.1 hn).1
      have hmem : (p, args[n]) ∈ block.blockParams.toList.zip args :=
        List.mem_of_getElem? (List.getElem?_zip_eq_some.2 ⟨hn, List.getElem?_eq_getElem hlt⟩)
      simpa using List.find?_eq_none.1 hnot _ hmem
    rcases assigned_of_edge (.next target 0) hr with hr | ⟨d, hd, hdef, _⟩
    · obtain ⟨v, hv, henv⟩ :=
        hat.agree r ((assigned_of_edge hedge hr).resolve_right (hnone r)) a ha
      refine ⟨v, hv, (phiEnv_other h.done ht fun p hp' he' => ?_).trans henv⟩
      have hd : Site.param target p ∈ sitesAt s (target, 0) := List.mem_map_of_mem hp'
      exact h.name_fresh he hp₀ hd hr (by rw [hv, he']; rfl)
    · obtain ⟨p, hp', rfl⟩ := List.mem_map.1 hd
      exact absurd hdef (hparam p (hpositions ▸ hp'))

end

/-! ## Operands -/

theorem Done.setup (h : Done s fin) : ∃ u st, (setup s (sized s)).result = some (u, st) := by
  obtain ⟨u, st, hset, _⟩ := setup_of_emit (s := s) (by rw [h.result]; rfl)
  exact ⟨u, st, hset⟩

variable [DecidableEq P]

/-- An operand that has a value has it in the module. -/
theorem At.exists_name (h : Relied s fin) (hl : l.Documented) (he : Starts s e)
    (hat : At s fin l e b j fr st) (hpos : (positions s.blocks b Block.instrs)[j]? = some iidx)
    (hi : s.instrs[iidx]? = some i) {k : Nat} {a : Val F P}
    (ha : arg s (platform s l) fr i k = some a) :
    ∃ o v, operand s i k = some o ∧ Names s fin o v ∧ st.env v = some a := by
  obtain ⟨o, ho, hv⟩ := Option.bind_eq_some_iff.1 ha
  unfold value at hv
  cases hdata : o.data <;> rw [hdata] at hv <;> simp only at hv
  case register r =>
    obtain ⟨v, hname, henv⟩ := hat.agree r (h.strict e he b j iidx i hpos hi k o r ho hdata) a hv
    refine ⟨o, v, ho, ?_, henv⟩
    rw [Names, hdata]
    exact join_eq_some hname
  case immutable idx =>
    obtain ⟨u, st₀, hset⟩ := h.done.setup
    refine ⟨o, .immutable idx, ho, by rw [Names, hdata], ?_⟩
    rw [hat.constants, constantValue_immediate hl hset hv]
  all_goals cases hv

theorem At.agrees (h : Relied s fin) (hl : l.Documented) (he : Starts s e)
    (hat : At s fin l e b j fr st) (hpos : (positions s.blocks b Block.instrs)[j]? = some iidx)
    (hi : s.instrs[iidx]? = some i) {k : Nat} {v : Value} (hv : NamesAt s fin i k v) :
    Agrees s l fr i st.env k v := by
  intro a ha
  obtain ⟨o, w, ho, hnames, henv⟩ := hat.exists_name h hl he hpos hi ha
  rw [hv.unique ⟨o, operand_eq ho, hnames⟩, henv]

/-! ## Steps -/

variable {rest : List InstructionIdx} {iss : List (List LlvmInstr)} {iidx : InstructionIdx}
  {i : Instruction}

/-- One instruction of the storage before its step, with what is left of the block. -/
structure Before (s : Storage) (fin : LlvmIrStorage) (l : Llvm F P ω) (e b : BlockIdx) (j : Nat)
    (iidx : InstructionIdx) (i : Instruction) (rest : List InstructionIdx)
    (iss : List (List LlvmInstr)) (fr : Frame F P ω) (st : ModuleState F P ω) : Prop where
  relied : Relied s fin
  documented : l.Documented
  starts : Starts s e
  here : At s fin l e b j fr st
  pos : (positions s.blocks b Block.instrs)[j]? = some iidx
  instr : s.instrs[iidx]? = some i
  ahead : rest = (positions s.blocks b Block.instrs).drop (j + 1)
  becomes : List.Forall₂ (fun iidx is => ∃ i, s.instrs[iidx]? = some i ∧ Becomes s fin iidx i is)
    rest iss

abbrev MatchesStep (s : Storage) (fin : LlvmIrStorage) (l : Llvm F P ω)
    (rest : List InstructionIdx) (rest' : List LlvmInstr) (st : ModuleState F P ω)
    (effect : Ir.Step F P ω) : Prop :=
  Matches (sourceMachine s l) (emittedMachine s l) (Rel s fin l) rest rest' st effect

theorem Before.rel (h : Before s fin l e b j iidx i rest iss fr st)
    (hat : At s fin l e b (j + 1) fr' st') : Rel s fin l rest iss.flatten fr' st' :=
  ⟨e, b, j + 1, iss, h.starts, hat, h.ahead, rfl, h.becomes⟩

/-- Control goes to a block. -/
theorem Before.enter (h : Before s fin l e b j iidx i rest iss fr st) {k : Nat} {target : BlockIdx}
    (hk : k ∈ targetPlaces i) (ht : targetAt s i k = some target) (hw : writesDst i.op = false)
    {args : List (Val F P)} {i' : LlvmInstr}
    (hstep : Lib.Llvm.step (host s l) (emittedModule s) i' st =
      branch (emittedModule s) st target)
    (hargs : ∀ block, s.blocks[target]? = some block → block.blockParams.size = args.length →
      ∀ p a, (p, a) ∈ block.blockParams.toList.zip args →
        phiEnv (emittedModule s) st target (.phi p) = some a) :
    MatchesStep s fin l rest (i' :: iss.flatten) st (enter s fr target args) := by
  have hedge : Onward s (b, j + 1) (target, 0) := .jump h.pos h.instr hk ht
  have hnone (r : RegisterIdx) : ¬ Assigns s (b, j + 1) r := fun hr => by
    have hd := (dst_of_assigns h.pos h.instr hr).2
    rw [hw] at hd
    cases hd
  unfold Ir.enter
  split
  · next block hblock =>
    split
    · next hsize =>
      have hat := h.here.goto h.relied h.starts hedge hnone hblock hsize (hargs block hblock hsize)
      obtain ⟨iss', hinstrs, hbec⟩ :=
        h.relied.done.instrs (h.relied.done.listed_of_path h.starts hat.path.choose_spec)
      refine .goto rfl hstep ⟨e, target, 0, iss', h.starts, hat, ?_, hinstrs, ?_⟩
      · rfl
      · exact hbec
    · exact .undefined
  · exact .undefined

theorem Before.agrees (h : Before s fin l e b j iidx i rest iss fr st) {k : Nat} {v : Value}
    (hv : NamesAt s fin i k v) : Agrees s l fr i st.env k v :=
  h.here.agrees h.relied h.documented h.starts h.pos h.instr hv

theorem Before.values (h : Before s fin l e b j iidx i rest iss fr st) {ks : List Nat}
    {vs : List Value} {as : List (Val F P)} (hvs : List.Forall₂ (NamesAt s fin i) ks vs)
    (has : ks.mapM (arg s (platform s l) fr i) = some as) : vs.mapM st.env = some as :=
  mapM_of_agrees (hvs.imp fun _ _ => h.agrees) has

/-- Nothing is left of the instruction. -/
theorem Before.skipped (h : Before s fin l e b j iidx i rest iss fr st)
    (hnone : writesDst i.op = false ∨ i.dst = none) :
    MatchesStep s fin l rest iss.flatten st (.next fr) := by
  refine .skip (h.rel (h.here.skip fun r hr => ?_))
  obtain ⟨hdst, hw⟩ := dst_of_assigns h.pos h.instr hr
  rcases hnone with hnone | hnone
  · rw [hnone] at hw; cases hw
  · rw [hnone] at hdst; cases hdst

/-! ### Computing -/

theorem orUndefined_matches {α : Type} {data : Option α} {k : α → Ir.Step F P ω}
    {rest' : List LlvmInstr} (h : ∀ a, data = some a → MatchesStep s fin l rest rest' st (k a)) :
    MatchesStep s fin l rest rest' st (orUndefined data k) := by
  cases data with
  | none => exact .undefined
  | some a => exact h a rfl

theorem stepInstr_compute
    (hop : i.op ∉ [.noop, .drop, .br, .condBr, .switch, .call, .ret, .unreachable])
    (hdst : discardable i.op = true → i.dst ≠ none) : stepInstr s (platform s l) fr i =
      orUndefined (compute s (platform s l) fr i) fun result =>
        .next ⟨i.dst.elim fr.regs fun dst => Function.update fr.regs dst result.1, result.2⟩ := by
  have hkeep : ¬ (discardable i.op = true ∧ i.dst = none) := fun hd => hdst hd.1 hd.2
  unfold stepInstr
  split <;> simp_all

theorem Before.aliased (h : Before s fin l e b j iidx i rest iss fr st) {dst : RegisterIdx}
    {v : Value} (hop : i.op = .move ∨ (i.op = .typeCast ∧ SameTags s i)) (hdst : i.dst = some dst)
    (hv : NamesAt s fin i 0 v) (hname : fin.registers[dst]? = some (some v)) :
    MatchesStep s fin l rest iss.flatten st (stepInstr s (platform s l) fr i) := by
  rw [stepInstr_compute (by rcases hop with hop | ⟨hop, -⟩ <;> simp [hop]) (by simp [hdst])]
  refine orUndefined_matches fun r hr => ?_
  have hvalue : ∃ a, arg s (platform s l) fr i 0 = some a ∧ r = (some a, fr.world) := by
    rcases hop with hop | ⟨hop, o, dst', reg, tag, ho, hdst', hreg, hsrc, htag⟩ <;>
      simp only [compute, hop, Option.bind_eq_bind, Option.bind_eq_some_iff] at hr
    · obtain ⟨a, ha, hr⟩ := hr
      cases hr
      exact ⟨a, ha, rfl⟩
    · obtain ⟨o₁, ho₁, t₁, ht₁, d₁, hd₁, r₁, hr₁, t₂, ht₂, ty, _, a, ha, hcast⟩ := hr
      cases ho.symm.trans (operand_eq ho₁)
      cases hdst'.symm.trans hd₁
      cases hreg.symm.trans hr₁
      cases hsrc.symm.trans ht₁
      cases htag.symm.trans ht₂
      rw [Ir.cast.eq_def, if_pos rfl] at hcast
      cases hcast
      exact ⟨a, ha, rfl⟩
  obtain ⟨a, ha, rfl⟩ := hvalue
  rw [hdst]
  exact .skip (h.rel (h.here.aliased h.pos h.instr hdst (nameOf_eq hname) (h.agrees hv a ha)))

/-- An instruction that computes. -/
theorem Before.computed (h : Before s fin l e b j iidx i rest iss fr st) {st₀ : LlvmIrStorage}
    {vs : List Value} {indices : List (BitVec 32)}
    (hop : i.op ∉ [.noop, .drop, .move, .br, .condBr, .switch, .call, .ret, .unreachable])
    (hcast : i.op = .typeCast → ¬ SameTags s i) (hdst : discardable i.op = true → i.dst ≠ none)
    (hvs : List.Forall₂ (NamesAt s fin i) (builtPlaces i) vs)
    (hindices : List.Forall₂ (indexBits s i) (indexPlaces i) indices)
    (helement : i.op = .getElementPtr → ∀ o r, s.operands[i.operands.head]? = some o →
      o.data = .register r → isAllocated s r = true → ∃ reg ty, s.registers[r]? = some reg ∧
        layout s reg.type = some ty ∧ st₀.allocaTypes[r]? = some (some ty))
    (hname : ∀ r, writesDst i.op = true → i.dst = some r →
      fin.registers[r]? = some (some (.instr iidx))) :
    MatchesStep s fin l rest ((llvmInstr s st₀ iidx i vs indices).toList ++ iss.flatten) st
      (stepInstr s (platform s l) fr i) := by
  simp only [List.mem_cons, List.not_mem_nil, or_false, not_or] at hop
  rw [stepInstr_compute (by simp [hop]) hdst, llvmInstr_select (by simp [hop])]
  refine orUndefined_matches fun r hr => ?_
  obtain ⟨o, as, ho, has, hexec⟩ :=
    computes_of_compute h.documented (by simp [hop]) hcast hindices helement hr
  rw [ho]
  exact .next rfl (step_op _ (emittedModule s) (h.values hvs has) (by rw [h.here.world]; exact hexec))
    (h.rel (h.here.built h.relied h.starts h.pos h.instr hname r.1 r.2))

/-! ### Calls -/

theorem Before.called (h : Before s fin l e b j iidx i rest iss fr st) (hop : i.op = .call)
    {st₀ : LlvmIrStorage} {vs : List Value} {indices : List (BitVec 32)}
    (hvs : List.Forall₂ (NamesAt s fin i) (builtPlaces i) vs)
    (hname : ∀ r, writesDst i.op = true → i.dst = some r →
      fin.registers[r]? = some (some (.instr iidx))) :
    MatchesStep s fin l rest ((llvmInstr s st₀ iidx i vs indices).toList ++ iss.flatten) st
      (stepInstr s (platform s l) fr i) := by
  rw [show builtPlaces i = 0 :: i.placesFrom 1 by rw [builtPlaces, hop]] at hvs
  obtain ⟨v, ws, ⟨o, ho, hnames⟩, hws, rfl⟩ := List.forall₂_cons_left_iff.1 hvs
  rw [stepInstr, hop]
  refine orUndefined_matches fun callee hcallee => orUndefined_matches fun args hargs => ?_
  cases ho.symm.trans (operand_eq hcallee)
  have hvalues := h.values hws hargs
  unfold callStep
  cases hdata : o.data <;> rw [Names, hdata] at hnames <;> simp only at hnames ⊢
  case function f =>
    subst hnames
    have hllvm : llvmInstr s st₀ iidx i (.function f :: ws) indices =
        some (.call (.instr iidx) f ws) := by simp [llvmInstr, hop]
    rw [hllvm]
    refine .call rfl ?_ fun value world =>
      h.rel (h.here.built h.relied h.starts h.pos h.instr hname value world)
    rw [← h.here.world]
    exact step_call (host s l) (emittedModule s) hvalues
  case externalFunction f =>
    subst hnames
    have hllvm : llvmInstr s st₀ iidx i (.externalFunction f :: ws) indices =
        some (.callExternal (.instr iidx) f ws) := by simp [llvmInstr, hop]
    rw [hllvm]
    split
    · next result world hresult =>
      refine .next rfl (step_callExternal _ (emittedModule s) hvalues ?_)
        (h.rel (h.here.built h.relied h.starts h.pos h.instr hname result world))
      rw [h.here.world]
      exact hresult
    · exact .undefined
  all_goals exact .undefined

/-! ### Control -/

theorem Before.returned (h : Before s fin l e b j iidx i rest iss fr st) (hop : i.op = .ret)
    {st₀ : LlvmIrStorage} {vs : List Value} {indices : List (BitVec 32)}
    (hvs : List.Forall₂ (NamesAt s fin i) (builtPlaces i) vs) :
    MatchesStep s fin l rest ((llvmInstr s st₀ iidx i vs indices).toList ++ iss.flatten) st
      (stepInstr s (platform s l) fr i) := by
  rw [show builtPlaces i = if i.operands.isEmpty then [] else [0] by rw [builtPlaces, hop]] at hvs
  simp only [stepInstr, hop]
  split at hvs
  · next hempty =>
    cases hvs
    have hllvm : llvmInstr s st₀ iidx i [] indices = some (.ret none) := by
      simp [llvmInstr, hop]
    rw [hllvm, if_pos hempty]
    refine .ret rfl ?_
    rw [← h.here.world]
    rfl
  · next hempty =>
    obtain ⟨v, ws, hv, hws, rfl⟩ := List.forall₂_cons_left_iff.1 hvs
    cases hws
    have hllvm : llvmInstr s st₀ iidx i [v] indices = some (.ret (some v)) := by
      simp [llvmInstr, hop]
    rw [hllvm, if_neg hempty]
    refine orUndefined_matches fun a ha => .ret rfl ?_
    rw [← h.here.world]
    exact step_ret (host s l) (emittedModule s) (h.agrees hv a ha)

/-- A branch to a block without arguments. -/
theorem Before.jumps (h : Before s fin l e b j iidx i rest iss fr st) {k : Nat} {target : BlockIdx}
    (hk : k ∈ targetPlaces i) (ht : targetAt s i k = some target) (hw : writesDst i.op = false)
    {i' : LlvmInstr} (hstep : Lib.Llvm.step (host s l) (emittedModule s) i' st =
      branch (emittedModule s) st target) :
    MatchesStep s fin l rest (i' :: iss.flatten) st (Ir.enter s fr target []) := by
  refine h.enter hk ht hw hstep fun block _ hsize p a hmem => ?_
  rw [List.zip_nil_right] at hmem
  exact nomatch hmem

theorem Before.condBr (h : Before s fin l e b j iidx i rest iss fr st) (hop : i.op = .condBr)
    {st₀ : LlvmIrStorage} {vs : List Value} {indices : List (BitVec 32)}
    (hvs : List.Forall₂ (NamesAt s fin i) (builtPlaces i) vs) :
    MatchesStep s fin l rest ((llvmInstr s st₀ iidx i vs indices).toList ++ iss.flatten) st
      (stepInstr s (platform s l) fr i) := by
  rw [show builtPlaces i = [0, 1, 2] by rw [builtPlaces, hop]] at hvs
  obtain ⟨cond, _, hcond, hvs₁, rfl⟩ := List.forall₂_cons_left_iff.1 hvs
  obtain ⟨t, _, hname₁, hvs₂, rfl⟩ := List.forall₂_cons_left_iff.1 hvs₁
  obtain ⟨f, _, hname₂, hvs₃, rfl⟩ := List.forall₂_cons_left_iff.1 hvs₂
  cases hvs₃
  simp only [stepInstr, hop]
  refine orUndefined_matches fun c hc => orUndefined_matches fun whenTrue ht =>
    orUndefined_matches fun whenFalse hf => ?_
  obtain ⟨rfl, -⟩ := hname₁.block ht
  obtain ⟨rfl, -⟩ := hname₂.block hf
  have hllvm : llvmInstr s st₀ iidx i [cond, .block whenTrue, .block whenFalse] indices =
      some (.condBr cond whenTrue whenFalse) := by simp [llvmInstr, hop, asLabel]
  rw [hllvm]
  split
  · next c =>
    have hstep : Lib.Llvm.step (host s l) (emittedModule s) (.condBr cond whenTrue whenFalse) st =
        branch (emittedModule s) st (if c = 1 then whenTrue else whenFalse) :=
      step_condBr _ _ (h.agrees hcond _ hc)
    by_cases hc1 : c = 1
    · rw [if_pos hc1] at hstep ⊢
      exact h.jumps (k := 1) (by simp [targetPlaces, hop]) ht (by rw [hop]; rfl) hstep
    · rw [if_neg hc1] at hstep ⊢
      exact h.jumps (k := 2) (by simp [targetPlaces, hop]) hf (by rw [hop]; rfl) hstep
  · exact .undefined

/-- The cases of a switch lead where those of the LLVM switch lead. -/
theorem Before.cases (h : Before s fin l e b j iidx i rest iss fr st) {ks : List Nat}
    {vs : List Value} {cases : List (Val F P × BlockIdx)}
    (hvs : List.Forall₂ (NamesAt s fin i) (ks.flatMap fun k => [k, k + 1]) vs)
    (hcases : ks.mapM (caseAt s (platform s l) fr i) = some cases) {n : Nat} (x : BitVec n)
    (default : BlockIdx) : ∃ cs, readCases vs = some cs ∧
      switchTarget st.env x default cs =
        (cases.find? fun c => c.1.isInt x).elim default Prod.snd ∧
      ∀ c ∈ cases, ∃ k ∈ ks, targetAt s i (k + 1) = some c.2 := by
  induction ks generalizing vs cases with
  | nil =>
    cases hvs
    cases hcases
    exact ⟨[], rfl, rfl, nofun⟩
  | cons k ks ih =>
    rw [List.flatMap_cons] at hvs
    obtain ⟨v, _, hv, hvs₁, rfl⟩ := List.forall₂_cons_left_iff.1 hvs
    obtain ⟨t, ws, ht, hws, rfl⟩ := List.forall₂_cons_left_iff.1 hvs₁
    rw [List.mapM_cons] at hcases
    obtain ⟨c, hc, hcases⟩ := Option.bind_eq_some_iff.1 hcases
    obtain ⟨cs, hcs, hcases⟩ := Option.bind_eq_some_iff.1 hcases
    cases hcases
    obtain ⟨a, ha, hc⟩ := Option.bind_eq_some_iff.1 hc
    obtain ⟨target, htarget, hc⟩ := Option.bind_eq_some_iff.1 hc
    cases hc
    obtain ⟨rfl, -⟩ := ht.block htarget
    obtain ⟨cs', hread, hswitch, htargets⟩ := ih hws hcs
    refine ⟨(v, target) :: cs', by simp [readCases, asLabel, hread], ?_, ?_⟩
    · rw [switchTarget] at hswitch ⊢
      rw [List.find?_cons, List.find?_cons, h.agrees hv a ha, Option.any_some]
      cases a.isInt x
      · exact hswitch
      · rfl
    · intro c hc
      rcases List.mem_cons.1 hc with rfl | hc
      · exact ⟨k, List.mem_cons_self .., htarget⟩
      · obtain ⟨k', hk', ht'⟩ := htargets c hc
        exact ⟨k', .tail _ hk', ht'⟩

theorem Before.switch (h : Before s fin l e b j iidx i rest iss fr st) (hop : i.op = .switch)
    {st₀ : LlvmIrStorage} {vs : List Value} {indices : List (BitVec 32)}
    (hvs : List.Forall₂ (NamesAt s fin i) (builtPlaces i) vs) :
    MatchesStep s fin l rest ((llvmInstr s st₀ iidx i vs indices).toList ++ iss.flatten) st
      (stepInstr s (platform s l) fr i) := by
  rw [show builtPlaces i = 0 :: 1 :: i.casePlaces.flatMap fun k => [k, k + 1] by
    rw [builtPlaces, hop]] at hvs
  obtain ⟨v, _, hv, hvs₁, rfl⟩ := List.forall₂_cons_left_iff.1 hvs
  obtain ⟨d, ws, hd, hws, rfl⟩ := List.forall₂_cons_left_iff.1 hvs₁
  simp only [stepInstr, hop]
  refine orUndefined_matches fun a ha => orUndefined_matches fun default hdefault =>
    orUndefined_matches fun cases hcases => ?_
  obtain ⟨rfl, -⟩ := hd.block hdefault
  split
  · next n x =>
    obtain ⟨cs, hread, hswitch, htargets⟩ := h.cases hws hcases x default
    have hllvm : llvmInstr s st₀ iidx i (v :: .block default :: ws) indices =
        some (.switch v default cs) := by simp [llvmInstr, hop, asLabel, hread]
    have hstep : Lib.Llvm.step (host s l) (emittedModule s) (.switch v default cs) st =
        branch (emittedModule s) st (switchTarget st.env x default cs) :=
      step_switch _ _ (h.agrees hv _ ha)
    rw [hswitch] at hstep
    rw [hllvm]
    cases hfind : cases.find? fun c => c.1.isInt x with
    | none =>
      rw [hfind] at hstep
      exact h.jumps (k := 1) (by simp [targetPlaces, hop]) hdefault (by rw [hop]; rfl) hstep
    | some c =>
      rw [hfind] at hstep
      obtain ⟨k, hk, ht⟩ := htargets c (List.mem_of_find?_eq_some hfind)
      refine h.jumps (k := k + 1) ?_ ht (by rw [hop]; rfl) hstep
      rw [targetPlaces, hop]
      exact .tail _ (List.mem_map_of_mem hk)
  · exact .undefined

/-- The argument of a branch reaches its parameter. -/
theorem Before.incoming (h : Before s fin l e b j iidx i rest iss fr st) (hop : i.op = .br)
    {target : BlockIdx} (ht : branchTarget s i = some target) (htarget : Listed s target)
    {block : Block} (hblock : s.blocks[target]? = some block) {n : Nat}
    (hn : n < block.blockParams.size)
    {a : Val F P} (ha : arg s (platform s l) fr i (1 + n) = some a) :
    phiEnv (emittedModule s) st target (.phi (block.blockParams.head + n)) = some a := by
  let p := block.blockParams.head + n
  have hdone := h.relied.done
  obtain ⟨o, v, ho, hnames, henv⟩ :=
    h.here.exists_name h.relied h.documented h.starts h.pos h.instr ha
  have hp : p ∈ positions s.blocks target Block.blockParams :=
    mem_positions.2 ⟨block, hblock, IdxRange.mem_toList.2 ⟨Nat.le_add_right .., by omega⟩⟩
  have hiidx : iidx ∈ positions s.blocks b Block.instrs := List.mem_of_getElem? h.pos
  have hlisted : Listed s b := hdone.listed_of_path h.starts h.here.path.choose_spec
  -- The operand at the place of the parameter is the argument.
  have hplace : NamesAt s fin i (1 + p) v := by
    have hdata := h.relied.inPlace i (List.mem_of_getElem? h.instr) hop target block ht hblock n hn
    rw [operand_eq ho, Option.map_some] at hdata
    obtain ⟨o', ho', hdata⟩ := Option.map_eq_some_iff.1 hdata
    exact ⟨o', ho', by rw [Names, hdata]; exact hnames⟩
  have harm : (v, b) ∈ armsOf s p :=
    hdone.arms.2 ⟨hlisted, iidx, hiidx, i, target, h.instr, hop, ht, hp, hplace⟩
  rw [phiEnv_phi hdone htarget hp, h.here.current]
  cases hfind : (armsOf s p).find? fun arm => arm.2 = b with
  | none => exact absurd (decide_eq_true rfl) (List.find?_eq_none.1 hfind (v, b) harm)
  | some arm =>
    obtain ⟨w, c⟩ := arm
    obtain rfl : c = b := by simpa using List.find?_some hfind
    obtain ⟨_, k', hk', i', target', hi', hop', _, _, hw⟩ :=
      hdone.arms.1 (List.mem_of_find?_eq_some hfind)
    obtain rfl := hdone.terminator_unique hiidx hk' h.instr hi' (by rw [hop]; rfl) (by rw [hop']; rfl)
    cases h.instr.symm.trans hi'
    rw [Option.bind_some, hw.unique hplace]
    exact henv

theorem getElem?_of_mapM {α β : Type} {f : α → Option β} {xs : List α} {ys : List β}
    (h : xs.mapM f = some ys) {n : Nat} {y : β} (hy : ys[n]? = some y) :
    ∃ x, xs[n]? = some x ∧ f x = some y := by
  induction xs generalizing ys n with
  | nil =>
    cases h
    exact nomatch hy
  | cons x xs ih =>
    rw [List.mapM_cons] at h
    obtain ⟨z, hz, h⟩ := Option.bind_eq_some_iff.1 h
    obtain ⟨zs, hzs, h⟩ := Option.bind_eq_some_iff.1 h
    cases h
    cases n with
    | zero => exact ⟨x, rfl, hz.trans hy⟩
    | succ n => exact ih hzs hy

theorem Before.br (h : Before s fin l e b j iidx i rest iss fr st) (hop : i.op = .br)
    {target : BlockIdx} (ht : branchTarget s i = some target) (hlisted : Listed s target) :
    MatchesStep s fin l rest (.br target :: iss.flatten) st (stepInstr s (platform s l) fr i) := by
  simp only [stepInstr, hop]
  refine orUndefined_matches fun target' htarget => orUndefined_matches fun args hargs => ?_
  obtain ⟨o, ho, hlabel⟩ := Option.bind_eq_some_iff.1 htarget
  obtain ⟨o', ho', hlabel'⟩ := Option.bind_eq_some_iff.1 ht
  cases ho'.symm.trans (operand_eq ho)
  cases hlabel.symm.trans hlabel'
  refine h.enter (k := 0) (by simp [targetPlaces, hop]) htarget (by rw [hop]; rfl) rfl ?_
  intro block hblock hsize p a hmem
  obtain ⟨n, hn⟩ := List.mem_iff_getElem?.1 hmem
  obtain ⟨hp, ha⟩ := List.getElem?_zip_eq_some.1 hn
  have hlt : n < block.blockParams.size := by
    have hlength : block.blockParams.toList.length = block.blockParams.size := List.length_range'
    rw [← hlength]
    exact (List.getElem?_eq_some_iff.1 hp).1
  have hpn : p = block.blockParams.head + n := by
    rw [IdxRange.toList, List.getElem?_range' hlt] at hp
    simpa using hp.symm
  obtain ⟨k, hk, hak⟩ := getElem?_of_mapM hargs ha
  have hkn : k = 1 + n := by
    rw [Instruction.placesFrom, List.getElem?_range'] at hk
    · simpa using hk.symm
    · simpa [Instruction.placesFrom] using (List.getElem?_eq_some_iff.1 hk).1
  subst hpn hkn
  exact h.incoming hop ht hlisted hblock hlt hak

/-! ## Runs -/

/-- **One instruction**: what the storage does, the module does next. -/
theorem Before.step (h : Before s fin l e b j iidx i rest iss fr st) {is : List LlvmInstr}
    (hbec : Becomes s fin iidx i is) :
    MatchesStep s fin l rest (is ++ iss.flatten) st (stepInstr s (platform s l) fr i) := by
  cases hbec with
  | skip hop =>
    rcases hop with hop | hop | ⟨hop, hdst⟩
    · simpa only [stepInstr, hop, List.nil_append] using h.skipped (.inl (by rw [hop]; rfl))
    · simpa only [stepInstr, hop, List.nil_append] using h.skipped (.inl (by rw [hop]; rfl))
    · have hnext : stepInstr s (platform s l) fr i = .next fr := by
        unfold stepInstr
        split <;> simp_all [discardable]
      rw [hnext]
      exact h.skipped (.inr hdst)
  | aliased hop hdst hv hname => exact h.aliased hop hdst hv hname
  | br hop ht hlisted => exact h.br hop ht hlisted
  | @build st₀ vs indices hop hcast hdst hvs hindices helement hname =>
    cases hi : i.op
    case call => exact h.called hi hvs hname
    case ret => exact h.returned hi hvs
    case condBr => exact h.condBr hi hvs
    case switch => exact h.switch hi hvs
    case unreachable =>
      simp only [stepInstr, hi]
      exact .undefined
    case noop | drop | move | br => exact absurd hi (by rintro he; simp [he] at hop)
    all_goals exact h.computed (by simp [hi]) hcast hdst hvs hindices helement hname

/-- The module simulates the storage. -/
theorem Relied.simulation (h : Relied s fin) (hl : l.Documented) :
    Simulation (sourceMachine s l) (emittedMachine s l) (Rel s fin l) where
  entry f args world b fr hentry := by
    obtain ⟨func, hfunc, hentry⟩ := Option.bind_eq_some_iff.1 hentry
    obtain ⟨b', hhead, hentry⟩ := Option.bind_eq_some_iff.1 hentry
    obtain ⟨block, hblock, hentry⟩ := Option.bind_eq_some_iff.1 hentry
    cases hentry
    have hf : f < s.functions.length := (List.getElem?_eq_some_iff.1 hfunc).1
    have hblocks : blocksOf s f = func.blocks.toList := by
      rw [blocksOf, positions, hfunc]
      rfl
    have hstarts : Starts s b := ⟨f, hf, by rw [hblocks]; exact hhead⟩
    have hlisted : Listed s b := ⟨f, hf, by rw [hblocks]; exact List.mem_of_mem_head? hhead⟩
    have hparams : block.blockParams.toList = [] := by
      rw [← h.noArguments b hstarts, positions, hblock]
      rfl
    obtain ⟨iss, hinstrs, hbec⟩ := h.done.instrs hlisted
    refine ⟨⟨constantValue s l, b, world⟩, ?_, b, b, 0, iss, hstarts,
      ⟨⟨_, .step .start (.next b 0)⟩, rfl, rfl, fun _ => rfl, fun r _ a ha => ?_⟩, rfl, hinstrs, hbec⟩
    · have hentry : (emittedModule s).entry f = some b := by rw [h.done.entry hf, hblocks, hhead]
      simp only [emittedMachine, Lib.Llvm.machine, hentry, Option.map_some, host]
    · simp [bindParams, hparams] at ha
  step iidx rest rest' fr st hrel := by
    obtain ⟨e, b, j, iss, hstarts, hat, hrest, rfl, hbec⟩ := hrel
    obtain ⟨is, iss, ⟨i, hi, his⟩, hiss, rfl⟩ := List.forall₂_cons_left_iff.1 hbec
    have hpos : (positions s.blocks b Block.instrs)[j]? = some iidx := by
      rw [← List.head?_drop, ← hrest]
      rfl
    have hahead : rest = (positions s.blocks b Block.instrs).drop (j + 1) := by
      rw [← List.tail_drop, ← hrest]
      rfl
    have hbefore : Before s fin l e b j iidx i rest iss fr st :=
      ⟨h, hl, hstarts, hat, hpos, hi, hahead, hiss⟩
    have hstep : (sourceMachine s l).step iidx fr = stepInstr s (platform s l) fr i := by
      simp only [sourceMachine, Ir.machine, hi, orUndefined]
    rw [hstep, List.flatten_cons]
    exact hbefore.step his

end

/-! ### A loop -/

/-- Counts to ten in a loop, the count in a block parameter. -/
def counting : Storage where
  functions := [⟨⟨4, ⟨0, 0⟩, 0⟩, ⟨0, 4⟩⟩]
  blocks := [⟨⟨0, 1⟩, ⟨0, 0⟩⟩, ⟨⟨1, 4⟩, ⟨0, 1⟩⟩, ⟨⟨5, 1⟩, ⟨0, 0⟩⟩, ⟨⟨6, 1⟩, ⟨0, 0⟩⟩]
  blockParams := [⟨4, 0⟩]
  instrs := [⟨.br, .add, none, ⟨0, 2⟩⟩, ⟨.intAdd, .add, some 1, ⟨2, 2⟩⟩,
    ⟨.move, .add, some 2, ⟨4, 1⟩⟩, ⟨.lt, .add, some 3, ⟨5, 2⟩⟩, ⟨.condBr, .add, none, ⟨7, 3⟩⟩,
    ⟨.br, .add, none, ⟨10, 2⟩⟩, ⟨.ret, .add, none, ⟨12, 1⟩⟩]
  immutables := [⟨4, 0⟩, ⟨4, 1⟩, ⟨4, 10⟩]
  registers := [⟨4⟩, ⟨4⟩, ⟨4⟩, ⟨1⟩]
  externalFunctions := []
  operands := [⟨.block 1, 0⟩, ⟨.immutable 0, 4⟩, ⟨.register 0, 4⟩, ⟨.immutable 1, 4⟩,
    ⟨.register 1, 4⟩, ⟨.register 2, 4⟩, ⟨.immutable 2, 4⟩, ⟨.register 3, 1⟩, ⟨.block 2, 0⟩,
    ⟨.block 3, 0⟩, ⟨.block 1, 0⟩, ⟨.register 2, 4⟩, ⟨.register 2, 4⟩]
  types := internPrimitives
  structTypes := []
  arrayTypes := []
  enumTypes := []
  enumVariantTypes := []
  refTypes := []
  tupleTypes := []

def countingMaps : LlvmIrStorage where
  functions := [some (.function 0)]
  registers := [some (.phi 0), some (.instr 1), some (.instr 1), some (.instr 3)]
  blocks := [some (.block 0), some (.block 1), some (.block 2), some (.block 3)]
  immutables := [some (.immutable 0), some (.immutable 1), some (.immutable 2)]
  externalFunctions := []
  allocaTypes := [none, none, none, none]
  insertBlock := some (.block 3)

/-- What is assigned at a point of `counting`. -/
abbrev Held (a : Point) (r : RegisterIdx) : Prop :=
  r < 4 ∧ (a.1 = 1 ∧ r < a.2 ∨ a.1 = 2 ∨ a.1 = 3)

theorem counting_done : Done counting countingMaps where
  accepted := by decide
  unshared := by decide
  result := by rfl
  found := by decide

/-- The instructions of `counting`, by their points. -/
def countingPoints : List (BlockIdx × Nat × InstructionIdx) :=
  [(0, 0, 0), (1, 0, 1), (1, 1, 2), (1, 2, 3), (1, 3, 4), (2, 0, 5), (3, 0, 6)]

theorem counting_points {b j iidx : Nat}
    (h : (positions counting.blocks b Block.instrs)[j]? = some iidx) :
    (b, j, iidx) ∈ countingPoints := by
  have hb : b < 4 := by
    obtain ⟨block, hblock, _⟩ := mem_positions.1 (List.mem_of_getElem? h)
    exact (List.getElem?_eq_some_iff.1 hblock).1
  have hj : j < 4 := by
    have hlt := (List.getElem?_eq_some_iff.1 h).1
    have hle : ∀ b < 4, (positions counting.blocks b Block.instrs).length ≤ 4 := by decide
    exact hlt.trans_le (hle b hb)
  have hall : ∀ b < 4, ∀ j < 4, ∀ iidx ∈ (positions counting.blocks b Block.instrs)[j]?,
      (b, j, iidx) ∈ countingPoints := by decide
  exact hall b hb j hj iidx h

theorem counting_strict : Strict counting 0 := by
  have hassigns : ∀ r < 4, Assigns counting (1, r) r := by
    intro r hr
    match r, hr with
    | 0, _ => exact ⟨.param 1 0, by decide, rfl, trivial⟩
    | 1, _ => exact ⟨.instr 1 1, by decide, rfl, _, rfl, rfl⟩
    | 2, _ => exact ⟨.instr 1 2, by decide, rfl, _, rfl, rfl⟩
    | 3, _ => exact ⟨.instr 1 3, by decide, rfl, _, rfl, rfl⟩
  have htargets : ∀ x ∈ countingPoints, ∀ i ∈ counting.instrs[x.2.2]?, ∀ k ∈ targetPlaces i,
      ∀ t ∈ targetAt counting i k, t = 2 ∨ t = 3 → x.1 = 1 ∧ x.2.1 = 3 := by decide
  have hreads : ∀ x ∈ countingPoints, ∀ i ∈ counting.instrs[x.2.2]?, ∀ k < i.operands.size,
      ∀ o ∈ operand counting i k, ∀ r ∈ o.asRegister, Held (x.1, x.2.1 + 1) r := by decide
  have hclosed {a : Point} {r : RegisterIdx} (h : Held a r) : Available counting 0 a r := by
    refine assigned_of_closed (fun x hx => by simp [Held] at hx) (fun a c hac r hr => ?_) h
    obtain ⟨hr4, hr⟩ := hr
    cases hac with
    | next b j =>
      rcases hr with ⟨rfl, hrj⟩ | hr
      · rcases Nat.lt_succ_iff_lt_or_eq.1 hrj with hrj | rfl
        · exact .inl ⟨hr4, .inl ⟨rfl, hrj⟩⟩
        · exact .inr (hassigns r hr4)
      · exact .inl ⟨hr4, .inr hr⟩
    | @jump b j iidx i k target hpos hi hk ht =>
      obtain ⟨rfl, rfl⟩ := htargets _ (counting_points hpos) i hi k hk target ht
        (hr.resolve_left fun h => Nat.not_lt_zero r h.2)
      exact .inl ⟨hr4, .inl ⟨rfl, hr4⟩⟩
  intro b j iidx i hpos hi k o r ho hr
  refine hclosed (hreads _ (counting_points hpos) i hi k ?_ o ho r ?_)
  · unfold operand at ho
    split at ho
    · assumption
    · cases ho
  · rw [Operand.asRegister, hr]
    rfl

theorem counting_relied : Relied counting countingMaps where
  done := counting_done
  noArguments := by
    rintro e ⟨f, hf, he⟩
    have hall : ∀ f < counting.functions.length, ∀ e ∈ (blocksOf counting f).head?,
        positions counting.blocks e Block.blockParams = [] := by decide
    exact hall f hf e he
  strict := by
    rintro e ⟨f, hf, he⟩
    have hall : ∀ f < counting.functions.length, ∀ e ∈ (blocksOf counting f).head?, e = 0 := by
      decide
    obtain rfl := hall f hf e he
    exact counting_strict
  inPlace := by
    have hall : ∀ i ∈ counting.instrs, i.op = .br → ∀ target ∈ branchTarget counting i,
        ∀ block ∈ counting.blocks[target]?, ∀ j < block.blockParams.size,
        (counting.operands[i.operands.head + (1 + (block.blockParams.head + j))]?).map
          Operand.data = (counting.operands[i.operands.head + (1 + j)]?).map Operand.data := by
      decide
    exact fun i hi hop target block ht hb j hj => hall i hi hop target ht block hb j hj
  aliases := by decide

/-! ### Integers only -/

def LlvmType.bits : LlvmType → Option Nat
  | .int n => some n
  | _ => none

def integersOnly : Llvm Unit Nat Unit :=
  let floats : Floats Unit LlvmType :=
    ⟨fun _ _ => (), fun _ _ => none, fun _ _ => (), fun _ => none, fun _ _ => ()⟩
  { floats
    string := fun id => id.toNat
    exec := Lib.Llvm.exec floats LlvmType.bits fun _ _ _ => none
    external := fun _ _ w => some (none, w)
    constant := fun c => match c with
      | .int (.int n) v _ => some (.int n (v.setWidth n))
      | .int .. => none
      | .fp .. => some (.float ())
      | .str id => some (.ptr id.toNat) }

theorem integersOnly_documented : integersOnly.Documented where
  exec := exec_documented _ _ fun _ => rfl
  constantInt _ _ _ := rfl
  constantFp _ _ := rfl
  constantStr _ := rfl

end Alcy.Codegen
