import Alcy.Codegen.Lookups
import Alcy.Codegen.Permute
import Mathlib.Logic.Equiv.Basic

/-! # Calls and the order of functions

`emit` declares a function and emits its body before it turns to the next one, so a call finds the
functions up to its own and null for a later one. External functions are declared before any body.
-/
namespace Alcy.Ir

/-- The name of a function after `σ`. An index without a function stays. -/
def renameFunction {n : Nat} (σ : Equiv.Perm (Fin n)) (g : FunctionIdx) : FunctionIdx :=
  if h : g < n then σ ⟨g, h⟩ else g

/-- The storage with its functions in another order: the function `g` becomes `σ g`. -/
def permuteFunctions (s : Storage) (σ : Equiv.Perm (Fin s.functions.length)) : Storage :=
  s.renamed (renameFunction σ) (List.ofFn fun g => s.functions[σ.symm g])

section
variable {n : Nat} (σ : Equiv.Perm (Fin n))

theorem renameFunction_of_lt {g : FunctionIdx} (h : g < n) : renameFunction σ g = σ ⟨g, h⟩ :=
  dif_pos h

theorem renameFunction_lt {g : FunctionIdx} : renameFunction σ g < n ↔ g < n := by
  unfold renameFunction
  split
  · next h => exact iff_of_true (σ ⟨g, h⟩).isLt h
  · rfl

/-- Every position is the new name of some function. -/
theorem exists_renameFunction {k : Nat} (hk : k < n) : ∃ f < n, renameFunction σ f = k := by
  refine ⟨σ.symm ⟨k, hk⟩, (σ.symm ⟨k, hk⟩).isLt, ?_⟩
  rw [renameFunction_of_lt σ (σ.symm ⟨k, hk⟩).isLt]
  simp

end

@[simp] theorem length_permuteFunctions (s : Storage) (σ : Equiv.Perm (Fin s.functions.length)) :
    (permuteFunctions s σ).functions.length = s.functions.length :=
  List.length_ofFn

theorem getElem?_permuteFunctions (s : Storage) (σ : Equiv.Perm (Fin s.functions.length))
    (f : FunctionIdx) :
    (permuteFunctions s σ).functions[renameFunction σ f]? = s.functions[f]? := by
  rw [show (permuteFunctions s σ).functions = List.ofFn fun g => s.functions[σ.symm g] from rfl,
    List.getElem?_ofFn]
  by_cases hf : f < s.functions.length
  · rw [dif_pos ((renameFunction_lt σ).2 hf), List.getElem?_eq_getElem hf]
    simp [renameFunction_of_lt σ hf]
  · rw [dif_neg (mt (renameFunction_lt σ).1 hf), List.getElem?_eq_none (Nat.le_of_not_lt hf)]

end Alcy.Ir

namespace Alcy.Codegen

open Alcy.Ir Alcy.Lib Alcy.Lib.Traced

variable {s : Storage}

/-! ## The claims about calls -/

/-- Every callee that an instruction looks up is declared, and it is the one that is named. -/
def CallsResolved (s : Storage) : Prop :=
  ∀ f b i e, (.instr f b i, e) ∈ walkTrace s →
    (∀ g v, e = .functionValue g v → v = some (.function g)) ∧
    ∀ g v, e = .externalFunctionValue g v → v = some (.externalFunction g)

/-- What the emission does on behalf of a function. -/
def functionLog (s : Storage) (f : FunctionIdx) : List Event :=
  ((walkTrace s).filter fun x => x.1.func = f).map Prod.snd

/-- In every order of the functions, each function is emitted as it is in this one. -/
def OrderIrrelevant (s : Storage) : Prop :=
  ∀ (σ : Equiv.Perm (Fin s.functions.length)) (f : FunctionIdx), f < s.functions.length →
    functionLog (permuteFunctions s σ) (renameFunction σ f) =
      (functionLog s f).map (Event.rename (renameFunction σ))

/-- The instruction is a call of a function of the storage. -/
def CallsFunction (s : Storage) (i : InstructionIdx) (g : FunctionIdx) : Prop :=
  ∃ instr o, s.instrs[i]? = some instr ∧ instr.op = .call ∧
    s.operands[instr.operands.head]? = some o ∧ o.data = .function g

/-- A function calls no other function of the storage. -/
def OwnCalls (s : Storage) : Prop :=
  ∀ f b i g, .instr f b i ∈ emissionOrder s → CallsFunction s i g → g = f

/-- The operand is of the function itself, if it names a register or a block. -/
def OwnOperand (s : Storage) (f : FunctionIdx) (o : Operand) : Prop :=
  (∀ r, o.data = .register r → OwnRegister s f r) ∧ ∀ c, o.data = .block c → c ∈ blocksOf s f

/-- No function has a block of another one, or uses a register or a block of another one. -/
structure Separate (s : Storage) : Prop where
  blocks : BlocksUnshared s
  operands : ∀ f b i instr, .instr f b i ∈ emissionOrder s → s.instrs[i]? = some instr →
    ∀ k ∈ valueOffsets s instr, ∀ o, s.operands[instr.operands.head + k]? = some o →
      OwnOperand s f o

/-! ## Callees -/

/-- **A callee is looked up by the call that names it.** -/
theorem callsFunction_of_log {step : Step} {st : LlvmIrStorage} {g : FunctionIdx} {v : Pointer}
    (h : .functionValue g v ∈ (emitStep s step st).log) :
    ∃ f b i, step = .instr f b i ∧ CallsFunction s i g := by
  let P (e : Event) : Prop :=
    ∀ g v, e = .functionValue g v → ∃ f b i, step = .instr f b i ∧ CallsFunction s i g
  have hother (e : Event) (he : NoLookup e) : P e := by
    rintro g v rfl
    exact he.elim
  have hlog : Logs P (emitStep s step) := by
    refine logs_step hother (fun _ _ _ _ _ _ h => nomatch h) fun f b i instr hstep hi => ?_
    refine logs_instruction hother i (fun _ _ _ _ => ?_) (fun hop o ho => ?_) fun _ _ _ param _ => ?_
    · exact logs_resolveOperandValue (fun _ _ _ _ _ h => nomatch h) (fun _ _ _ _ _ h => nomatch h)
        fun _ _ _ _ h => nomatch h
    · refine logs_resolveOperandFunction (fun g v hdata g' v' h => ?_) fun _ _ _ _ h => nomatch h
      cases h
      exact ⟨f, b, i, hstep, instr, o, hi, hop, ho, hdata⟩
    · exact logs_map LlvmIrStorage.registers (.registerValue param.reg) (fun _ _ _ h => nomatch h) _
  exact hlog st _ h g v rfl

theorem block_of_enter {step : Step} {f b : Nat} (hm : step ∈ emissionOrder s)
    (h : step = .enterPhis f b ∨ step = .enterBody f b) : b ∈ blocksOf s step.func := by
  have hmem := (mem_emissionOrder.1 hm).2
  rcases mem_functionSteps.1 hmem with h' | ⟨_, _, h'⟩ | ⟨c, hc, h'⟩ | ⟨c, hc, h'⟩
  · rcases h with rfl | rfl <;> cases h'
  · rcases h with rfl | rfl <;> cases h'
  · rcases mem_phiSteps.1 h' with h' | ⟨_, _, h'⟩ <;> rcases h with rfl | rfl <;> cases h'
    exact hc
  · rcases mem_bodySteps.1 h' with h' | ⟨_, _, h'⟩ <;> rcases h with rfl | rfl <;> cases h'
    exact hc

/-- In a storage whose functions are separate, a step looks up what is its function's own. -/
theorem own_of_log (hsep : Separate s) {step : Step} (hm : step ∈ emissionOrder s)
    {st : LlvmIrStorage} {e : Event} (h : e ∈ (emitStep s step st).log) :
    (∀ r v, e = .registerValue r v → OwnRegister s step.func r) ∧
      ∀ c v, e = .blockValue c v → c ∈ blocksOf s step.func := by
  let P (e : Event) : Prop := (∀ r v, e = .registerValue r v → OwnRegister s step.func r) ∧
    ∀ c v, e = .blockValue c v → c ∈ blocksOf s step.func
  have hother (e : Event) (he : NoLookup e) : P e := by
    constructor <;> rintro _ _ rfl <;> exact he.elim
  have hregister {r : RegisterIdx} (hr : OwnRegister s step.func r) (v : Pointer) :
      P (.registerValue r v) := by
    refine ⟨fun r' v' h => ?_, fun _ _ h => nomatch h⟩
    cases h
    exact hr
  have hblock {c : BlockIdx} (hc : c ∈ blocksOf s step.func) (v : Pointer) :
      P (.blockValue c v) := by
    refine ⟨fun _ _ h => (nomatch h), fun c' v' h => ?_⟩
    cases h
    exact hc
  have hlog : Logs P (emitStep s step) := by
    refine logs_step hother (fun f b hstep => hblock ?_) fun f b i instr hstep hi => ?_
    · exact block_of_enter hm hstep
    subst hstep
    have hown := hsep.operands f b i instr hm hi
    refine logs_instruction hother i (fun k hk o ho => ?_) (fun _ _ _ => ?_)
      fun hop p hp param hparam => ?_
    · exact logs_resolveOperandValue (fun r v hr => hregister ((hown k hk o ho).1 r hr) v)
        (fun c v hc => hblock ((hown k hk o ho).2 c hc) v) fun _ _ =>
          ⟨fun _ _ h => (nomatch h), fun _ _ h => nomatch h⟩
    · exact logs_resolveOperandFunction
        (fun _ _ _ => ⟨fun _ _ h => (nomatch h), fun _ _ h => nomatch h⟩)
        fun _ _ => ⟨fun _ _ h => (nomatch h), fun _ _ h => nomatch h⟩
    · refine logs_map LlvmIrStorage.registers (.registerValue param.reg) (hregister ?_) _
      obtain ⟨o, ho, c, hc, block, hb, hp⟩ := mem_targetParams.1 hp
      have hk : 0 ∈ valueOffsets s instr := by simp [valueOffsets, hop]
      refine ⟨.param c p, Storage.mem_sites_param hb hp, (hown 0 hk o ho).2 c hc, ?_⟩
      simp [Storage.definition, hparam]
  exact hlog st e h

/-- A call that finishes has looked its callee up. -/
theorem log_of_callsFunction {f b i g : Nat} {st st' : LlvmIrStorage}
    (hc : CallsFunction s i g) (hr : (emitStep s (.instr f b i) st).result = some ((), st')) :
    ∃ v, .functionValue g v ∈ (emitStep s (.instr f b i) st).log := by
  obtain ⟨instr, o, hi, hop, ho, hdata⟩ := hc
  have hstep : emitStep s (.instr f b i) = (do
      let callee ← functionValue g
      let args ← (List.range' 1 (instr.operands.size - 1)).mapM fun offset =>
        resolveAt s (instr.operands.head + offset)
      addDst instr.dst (← build i (callee :: args) [])) := by
    simp only [emitStep, emitInstr, fetch, hi, pure_bind, emitInstruction, hop, emitCall, ho,
      resolveOperandFunction, hdata]
  rw [hstep] at hr ⊢
  cases hg : st.functions[g]? with
  | none =>
    have hstop : functionValue g st = ⟨[], none⟩ := by
      simp only [functionValue, bind_def, resume, Traced.get, fetch, hg, Traced.stop,
        List.nil_append]
    rw [bind_def, hstop] at hr
    cases hr
  | some v =>
    have hfound : functionValue g st = ⟨[.functionValue g v], some (v, st)⟩ := by
      simp only [functionValue, bind_def, resume, Traced.get, fetch, hg, Traced.tell, pure_run,
        List.nil_append, List.append_nil]
    refine ⟨v, ?_⟩
    rw [bind_def, hfound]
    exact List.mem_append_left _ (List.mem_singleton_self _)

/-! ## What other functions leave alone -/

/-- No two functions have a register or a block in common. -/
structure Apart (s : Storage) : Prop where
  registers : ∀ f < s.functions.length, ∀ g < s.functions.length, ∀ r, OwnRegister s f r →
    OwnRegister s g r → f = g
  blocks : BlocksUnshared s

theorem apart_of_accepted (hv : verifyStorage s = .ok ()) (hu : BlocksUnshared s) : Apart s := by
  refine ⟨?_, hu⟩
  rintro f hf g hg r ⟨d, hd, hdb, hdr⟩ ⟨e, he, heb, her⟩
  obtain rfl := (soleDefinition_of_accepted hv hd hdr e).1 ⟨he, her⟩
  exact hu f hf g hg _ hdb heb

/-- What a function reads is as it was. -/
structure Untouched (s : Storage) (f : FunctionIdx) (st st' : LlvmIrStorage) : Prop where
  registers : ∀ r, OwnRegister s f r → st'.registers[r]? = st.registers[r]?
  blocks : ∀ b ∈ blocksOf s f, st'.blocks[b]? = st.blocks[b]?
  functions : st'.functions[f]? = st.functions[f]?
  externalFunctions : st'.externalFunctions = st.externalFunctions
  immutables : st'.immutables = st.immutables
  registersSize : st'.registers.length = st.registers.length
  blocksSize : st'.blocks.length = st.blocks.length
  functionsSize : st'.functions.length = st.functions.length
  allocaTypesSize : st'.allocaTypes.length = st.allocaTypes.length

instance (s : Storage) (f : FunctionIdx) : Std.Refl (Untouched s f) :=
  ⟨fun _ => ⟨fun _ _ => rfl, fun _ _ => rfl, rfl, rfl, rfl, rfl, rfl, rfl, rfl⟩⟩

instance (s : Storage) (f : FunctionIdx) : IsTrans LlvmIrStorage (Untouched s f) :=
  ⟨fun _ _ _ h h' => {
    registers := fun r hr => (h'.registers r hr).trans (h.registers r hr)
    blocks := fun b hb => (h'.blocks b hb).trans (h.blocks b hb)
    functions := h'.functions.trans h.functions
    externalFunctions := h'.externalFunctions.trans h.externalFunctions
    immutables := h'.immutables.trans h.immutables
    registersSize := h'.registersSize.trans h.registersSize
    blocksSize := h'.blocksSize.trans h.blocksSize
    functionsSize := h'.functionsSize.trans h.functionsSize
    allocaTypesSize := h'.allocaTypesSize.trans h.allocaTypesSize }⟩

/-- A step of one function leaves alone what another one reads. -/
theorem untouched_step (ha : Apart s) {f : FunctionIdx} (hf : f < s.functions.length) {step : Step}
    (hm : step ∈ emissionOrder s) (hne : step.func ≠ f) :
    Preserves (Untouched s f) (emitStep s step) := by
  intro st u st' hr
  obtain ⟨hlt, hmem⟩ := mem_emissionOrder.1 hm
  obtain ⟨reads, writes, hs⟩ := emits_step (s := s) step st
  have h := hs.after u st' hr
  have hreg : ∀ r, OwnRegister s f r → st'.registers[r]? = st.registers[r]? := by
    intro r hown
    cases hw : step.writes s with
    | none => rw [h.noRegister hw]
    | some q =>
      obtain ⟨v, _, _, hset, _⟩ := h.register q hw
      obtain ⟨d, _, hd, hdq, _, hdb⟩ := site_of_writes hm hw
      have hqr : q ≠ r := by
        rintro rfl
        exact hne (ha.registers _ hlt f hf q ⟨d, hd, hdb, hdq⟩ hown)
      rw [hset, List.getElem?_set_ne hqr]
  have hregSize : st'.registers.length = st.registers.length := by
    cases hw : step.writes s with
    | none => rw [h.noRegister hw]
    | some q =>
      obtain ⟨v, _, _, hset, _⟩ := h.register q hw
      rw [hset, List.length_set]
  have hblock : ∀ b ∈ blocksOf s f, st'.blocks[b]? = st.blocks[b]? := by
    intro b hb
    rw [h.blocks]
    cases step with
    | declareBlock g c =>
      have hcb : c ≠ b := by
        rintro rfl
        rcases mem_functionSteps.1 hmem with h | ⟨c', hc, h⟩ | ⟨c', _, h⟩ | ⟨c', _, h⟩
        · cases h
        · cases h
          exact hne (ha.blocks g hlt f hf c hc hb)
        · simp [mem_phiSteps] at h
        · simp [mem_bodySteps] at h
      exact List.getElem?_set_ne hcb
    | _ => rfl
  have hfun : st'.functions[f]? = st.functions[f]? := by
    rw [h.functions]
    cases step with
    | declareFunction g => exact List.getElem?_set_ne hne
    | _ => rfl
  refine ⟨hreg, hblock, hfun, h.externalFunctions, h.immutables, hregSize, ?_, ?_, h.allocaTypes⟩
  · rw [h.blocks]
    cases step with
    | declareBlock g c => exact List.length_set
    | _ => rfl
  · rw [h.functions]
    cases step with
    | declareFunction g => exact List.length_set
    | _ => rfl

/-- **Other functions** leave alone what a function reads. -/
theorem untouched_function (ha : Apart s) {f g : FunctionIdx} (hf : f < s.functions.length)
    (hg : g < s.functions.length) (hne : g ≠ f) :
    Preserves (Untouched s f) (emitFunction s g) := by
  rw [← forM_functionSteps]
  refine Preserves.forM fun step hstep => ?_
  have hfunc := func_of_mem hstep
  exact untouched_step ha hf (mem_emissionOrder.2 ⟨hfunc ▸ hg, hfunc ▸ hstep⟩) (hfunc ▸ hne)

/-! ## The emission of one function -/

theorem range_split {f n : Nat} (hf : f < n) :
    ∃ later, List.range n = List.range f ++ f :: later ∧ f ∉ later := by
  obtain ⟨k, rfl⟩ := Nat.exists_eq_add_of_lt hf
  refine ⟨(List.range k).map (f + 1 + ·), ?_, by simp; omega⟩
  rw [show f + k + 1 = f + (1 + k) by omega, List.range_add, List.range_add, List.map_append,
    List.map_map]
  simp [List.range_succ, Nat.add_assoc]

/-- What a function's part of the log is: what its emission logs, after the functions before it. -/
theorem functionLog_eq {st₀ st : LlvmIrStorage} {u : Unit} {log : List Event} {f : FunctionIdx}
    (hset : (setup s (sized s)).result = some (u, st₀)) (hf : f < s.functions.length)
    (hw : Walk (emitFunction s) (List.range f) st₀ log st) :
    functionLog s f = (emitFunction s f st).log := by
  have htrace : (walkTrace s).map (Prod.map Step.func id) =
      trace (emitFunction s) (List.range s.functions.length) st₀ := by
    rw [walkTrace, hset, Option.elim_some, emissionOrder,
      trace_flatMap (fun f x hx => func_of_mem hx),
      show (fun f => (functionSteps s f).forM (emitStep s)) = emitFunction s from
        funext forM_functionSteps]
  obtain ⟨later, hsplit, hlater⟩ := range_split hf
  have hlog : functionLog s f = (((walkTrace s).map (Prod.map Step.func id)).filter
      fun y => y.1 = f).map Prod.snd := by
    rw [functionLog, List.filter_map, List.map_map]
    rfl
  rw [hlog, htrace, hsplit, filter_trace hw (by simp) hlater]

/-- The emission that finishes has emitted the functions before each one, and that one. -/
theorem walk_to {f : FunctionIdx} (hdone : (emit s (sized s)).result.isSome = true)
    (hf : f < s.functions.length) : ∃ u st₀ log st st', (setup s (sized s)).result = some (u, st₀) ∧
      Walk (emitFunction s) (List.range f) st₀ log st ∧
      (emitFunction s f st).result = some ((), st') := by
  unfold emit at hdone
  rcases bind_cases (m := setup s)
    (k := fun _ => (List.range s.functions.length).forM (emitFunction s)) (sized s) with
    ⟨_, h⟩ | ⟨u, st₀, hset, h⟩ <;> rw [h] at hdone
  · exact absurd hdone (by simp)
  obtain ⟨later, hsplit, _⟩ := range_split hf
  rw [hsplit] at hdone
  obtain ⟨log, st, hw, hrest⟩ := exists_walk hdone
  rw [show (f :: later).forM (emitFunction s) =
    (emitFunction s f >>= fun _ => later.forM (emitFunction s)) from rfl] at hrest
  rcases bind_cases (m := emitFunction s f) (k := fun _ => later.forM (emitFunction s)) st with
    ⟨_, h⟩ | ⟨_, st', hr, _⟩
  · rw [h] at hrest
    exact absurd hrest (by simp)
  · exact ⟨u, st₀, log, st, st', hset, hw, hr⟩

/-- An event of a function's emission is one of the walk. -/
theorem mem_functionLog {f : FunctionIdx} {e : Event} :
    e ∈ functionLog s f ↔ ∃ step, step.func = f ∧ (step, e) ∈ walkTrace s := by
  simp only [functionLog, List.mem_map, List.mem_filter, decide_eq_true_eq]
  constructor
  · rintro ⟨x, ⟨hx, hf⟩, rfl⟩
    exact ⟨x.1, hf, hx⟩
  · rintro ⟨step, hf, hx⟩
    exact ⟨(step, e), ⟨hx, hf⟩, rfl⟩

/-! ## Another order -/

section
variable {ρ : FunctionIdx → FunctionIdx} {functions : List Function}

theorem setup_renamed : setup (s.renamed ρ functions) = setup s := by
  have himm (i : ImmutableIdx) :
      setupImmutable (s.renamed ρ functions) i = setupImmutable s i := by
    unfold setupImmutable constant
    rw [show type (s.renamed ρ functions) = type s from funext type_renamed]
    rfl
  have hext (i : ExternalFunctionIdx) :
      setupExternalFunction (s.renamed ρ functions) i = setupExternalFunction s i := by
    unfold setupExternalFunction
    rw [show createFunction (s.renamed ρ functions) = createFunction s from
      funext createFunction_renamed]
    rfl
  unfold setup
  rw [show setupImmutable (s.renamed ρ functions) = setupImmutable s from funext himm,
    show setupExternalFunction (s.renamed ρ functions) = setupExternalFunction s from funext hext]
  rfl

end

section
variable (σ : Equiv.Perm (Fin s.functions.length))

theorem setup_permute : setup (permuteFunctions s σ) (sized (permuteFunctions s σ)) =
    setup s (sized s) := by
  have hsized : sized (permuteFunctions s σ) = sized s := by
    unfold sized
    rw [length_permuteFunctions]
    rfl
  rw [hsized]
  exact congrFun setup_renamed _

theorem blocksOf_permute (f : FunctionIdx) :
    blocksOf (permuteFunctions s σ) (renameFunction σ f) = blocksOf s f := by
  unfold blocksOf positions
  rw [getElem?_permuteFunctions]

theorem ownRegister_permute (f : FunctionIdx) (r : RegisterIdx) :
    OwnRegister (permuteFunctions s σ) (renameFunction σ f) r ↔ OwnRegister s f r := by
  unfold OwnRegister
  rw [blocksOf_permute]
  rfl

theorem Apart.permute (h : Apart s) : Apart (permuteFunctions s σ) := by
  constructor
  · intro f hf g hg r hfr hgr
    rw [length_permuteFunctions] at hf hg
    obtain ⟨f, hf', rfl⟩ := exists_renameFunction σ hf
    obtain ⟨g, hg', rfl⟩ := exists_renameFunction σ hg
    rw [ownRegister_permute] at hfr hgr
    rw [h.registers f hf' g hg' r hfr hgr]
  · intro f hf g hg b hfb hgb
    rw [length_permuteFunctions] at hf hg
    obtain ⟨f, hf', rfl⟩ := exists_renameFunction σ hf
    obtain ⟨g, hg', rfl⟩ := exists_renameFunction σ hg
    rw [blocksOf_permute] at hfb hgb
    rw [h.blocks f hf' g hg' b hfb hgb]

end

/-- The set-up puts nothing into the maps that is called by a function's name. -/
theorem setup_unnamed (ρ : FunctionIdx → FunctionIdx) {st : LlvmIrStorage} {u : Unit}
    (h : (setup s (sized s)).result = some (u, st)) :
    (∀ v ∈ st.immutables, Pointer.rename ρ v = v) ∧
      ∀ v ∈ st.externalFunctions, Pointer.rename ρ v = v := by
  let Unnamed (st : LlvmIrStorage) : Prop := (∀ v ∈ st.immutables, Pointer.rename ρ v = v) ∧
    ∀ v ∈ st.externalFunctions, Pointer.rename ρ v = v
  let R (st st' : LlvmIrStorage) : Prop := Unnamed st → Unnamed st'
  have : Std.Refl R := ⟨fun _ => id⟩
  have : IsTrans LlvmIrStorage R := ⟨fun _ _ _ h h' => h' ∘ h⟩
  have hset {l : List Pointer} {i : Nat} {v : Pointer} (hl : ∀ v ∈ l, Pointer.rename ρ v = v)
      (hv : Pointer.rename ρ v = v) : ∀ w ∈ l.set i v, Pointer.rename ρ w = w := by
    intro w hw
    rcases List.mem_or_eq_of_mem_set hw with hw | rfl
    exacts [hl w hw, hv]
  have hsetup : Preserves R (setup s) := by
    refine .bind (.forM fun i _ => ?_) fun _ => .forM fun i _ => ?_
    · refine (looks_fetch ..).then fun imm => (looks_fetch ..).then fun node =>
        (looks_constant imm node.tag).then fun c => looks_get.then fun _ =>
        (looks_fetch ..).then fun _ => .tellThen (.modify fun st hst => ?_)
      exact ⟨hset hst.1 rfl, hst.2⟩
    · refine (looks_fetch ..).then fun _ => (looks_createFunction _).then fun _ =>
        looks_get.then fun _ => (looks_fetch ..).then fun _ =>
        .tellThen (.modify fun st hst => ?_)
      exact ⟨hst.1, hset hst.2 rfl⟩
  refine hsetup (sized s) u st h ⟨?_, ?_⟩ <;> intro v hv <;> rw [List.eq_of_mem_replicate hv] <;>
    rfl

section
variable (σ : Equiv.Perm (Fin s.functions.length))

/-- Where neither run has come to the function yet, the maps agree on what it reads. -/
theorem agree_start {st₀ st st' : LlvmIrStorage} {u : Unit} {f : FunctionIdx}
    (hset : (setup s (sized s)).result = some (u, st₀)) (hu : Untouched s f st₀ st)
    (hu' : Untouched (permuteFunctions s σ) (renameFunction σ f) st₀ st') :
    Agree s (renameFunction σ) f False st st' := by
  obtain ⟨hregs, hblocks, hfuns⟩ := setup_sameMaps s (sized s) u st₀ hset
  obtain ⟨himm, hext⟩ := setup_unnamed (renameFunction σ) hset
  have hmap {l : List Pointer} (hl : ∀ v ∈ l, Pointer.rename (renameFunction σ) v = v) :
      l = l.map (Pointer.rename (renameFunction σ)) := by
    conv_lhs => rw [← List.map_id l]
    exact List.map_congr_left fun v hv => (hl v hv).symm
  have hnull {n i : Nat} : (List.replicate n none)[i]? =
      ((List.replicate n none)[i]?).map (Pointer.rename (renameFunction σ)) := by
    rw [List.getElem?_replicate]
    split <;> rfl
  have hsize : st₀.functions.length = s.functions.length := by
    rw [hfuns]
    exact List.length_replicate
  refine ⟨fun r hr => ?_, fun b hb => ?_, ?_, ?_, ?_, ?_, ?_, fun g hg => ?_, ?_, False.elim⟩
  · rw [hu'.registers r ((ownRegister_permute σ f r).2 hr), hu.registers r hr, hregs]
    exact hnull
  · rw [hu'.blocks b (by rwa [blocksOf_permute]), hu.blocks b hb, hblocks]
    exact hnull
  · rw [hu'.functions, hu.functions, hfuns, sized, List.getElem?_replicate,
      List.getElem?_replicate]
    simp only [renameFunction_lt]
    split <;> rfl
  · rw [hu'.externalFunctions, hu.externalFunctions]
    exact hmap hext
  · rw [hu'.immutables, hu.immutables]
    exact hmap himm
  · rw [hu'.registersSize, hu.registersSize]
  · rw [hu'.blocksSize, hu.blocksSize]
  · rw [hu.functionsSize, hsize] at hg
    rw [hu'.functionsSize, hsize]
    exact Nat.le_of_not_lt fun hlt => absurd ((renameFunction_lt σ).1 hlt) (Nat.not_lt.2 hg)
  · rw [hu'.allocaTypesSize, hu.allocaTypesSize]

theorem untouched_walk (ha : Apart s) {f : FunctionIdx} (hf : f < s.functions.length)
    {st₀ st : LlvmIrStorage} {log : List Event}
    (hw : Walk (emitFunction s) (List.range f) st₀ log st) : Untouched s f st₀ st := by
  refine hw.preserves fun g hg => ?_
  have hlt := List.mem_range.1 hg
  exact untouched_function ha hf (Nat.lt_trans hlt hf) (Nat.ne_of_lt hlt)

/-- **One function in the other order** is emitted as in this one. -/
theorem emitFunction_permute (ha : Apart s)
    (hown : ∀ f < s.functions.length, ∀ e ∈ functionLog s f, e.OwnOf s f)
    (hdone : (emit s (sized s)).result.isSome = true) {f : FunctionIdx}
    (hf : f < s.functions.length) {st₀ st' : LlvmIrStorage} {u : Unit} {log' : List Event}
    (hset : (setup s (sized s)).result = some (u, st₀))
    (hw' : Walk (emitFunction (permuteFunctions s σ)) (List.range (renameFunction σ f)) st₀ log'
      st') :
    (emitFunction (permuteFunctions s σ) (renameFunction σ f) st').log =
      (functionLog s f).map (Event.rename (renameFunction σ)) ∧
    ∃ st'', (emitFunction (permuteFunctions s σ) (renameFunction σ f) st').result =
      some ((), st'') := by
  obtain ⟨u, st₀, log, st, st₁, hset₀, hw, hr⟩ := walk_to hdone hf
  cases hset.symm.trans hset₀
  have hlt : renameFunction σ f < (permuteFunctions s σ).functions.length := by
    rw [length_permuteFunctions]
    exact (renameFunction_lt σ).2 hf
  have hagree := agree_start σ hset (untouched_walk ha hf hw) (untouched_walk (ha.permute σ) hlt hw')
  have hlog := functionLog_eq hset hf hw
  obtain ⟨hl, hres⟩ := alike_function (getElem?_permuteFunctions s σ f) st st' hagree
    (hlog ▸ hown f hf)
  rw [hlog]
  refine ⟨hl, ?_⟩
  rw [hr] at hres
  generalize hres' : (emitFunction (s.renamed _ _) (renameFunction σ f) st').result = res at hres
  cases hres with
  | @some x y h => exact ⟨y.2, hres'⟩

end

/-! ## The condition -/

/-- A callee is found exactly by its own function and by the later ones. -/
theorem functionValue_iff {f b i g : Nat} {v : Pointer}
    (h : (.instr f b i, .functionValue g v) ∈ walkTrace s) : v = some (.function g) ↔ g ≤ f := by
  obtain ⟨before, after, hsplit⟩ := List.append_of_mem h
  obtain ⟨before, after, log, st, ho, ht, hread, _⟩ := lookup_cases hsplit nofun
  have hrank : (Step.declareFunction g).rank < 3 := by simp [Step.rank]
  have hdecl := declared_iff ho hrank
  have hm : .instr f b i ∈ emissionOrder s := ho ▸ List.mem_append_right _ (List.mem_cons_self ..)
  have hf : f < s.functions.length := (mem_emissionOrder.1 hm).1
  rcases ht.functions g v hread with ⟨rfl, hg⟩ | ⟨rfl, hg⟩
  · exact iff_of_true rfl (hdecl.1 hg).2
  · refine iff_of_false (by simp) fun hle => hg (hdecl.2 ⟨?_, hle⟩)
    exact mem_emissionOrder.2 ⟨Nat.lt_of_le_of_lt hle hf, List.mem_cons_self ..⟩

/-- External functions are declared before the walk. -/
theorem externalFunctionValue_eq {step : Step} {e : ExternalFunctionIdx} {v : Pointer}
    (h : (step, .externalFunctionValue e v) ∈ walkTrace s) : v = some (.externalFunction e) := by
  obtain ⟨before, after, hsplit⟩ := List.append_of_mem h
  obtain ⟨_, _, _, st, _, ht, hread, _⟩ := lookup_cases hsplit nofun
  exact ht.externalFunctions e v hread

theorem log_of_walkTrace {step : Step} {e : Event} (h : (step, e) ∈ walkTrace s) :
    step ∈ emissionOrder s ∧ ∃ st, e ∈ (emitStep s step st).log := by
  unfold walkTrace at h
  cases hset : (setup s (sized s)).result with
  | none => simp [hset] at h
  | some r =>
    rw [hset, Option.elim_some] at h
    exact log_of_trace h

/-- The lookup of a callee belongs to a call that names it. -/
theorem calls_of_mem {step : Step} {g : FunctionIdx} {v : Pointer}
    (h : (step, .functionValue g v) ∈ walkTrace s) : ∃ f b i, step = .instr f b i ∧
      .instr f b i ∈ emissionOrder s ∧ CallsFunction s i g := by
  obtain ⟨hm, st, hlog⟩ := log_of_walkTrace h
  obtain ⟨f, b, i, rfl, hc⟩ := callsFunction_of_log hlog
  exact ⟨f, b, i, rfl, hm, hc⟩

/-- A call of an emission that finishes has looked its callee up. -/
theorem mem_of_calls (hdone : (emit s (sized s)).result.isSome = true) {f b i g : Nat}
    (hm : .instr f b i ∈ emissionOrder s) (hc : CallsFunction s i g) :
    ∃ v, (.instr f b i, .functionValue g v) ∈ walkTrace s := by
  rw [emit_eq_walk] at hdone
  rcases bind_cases (m := setup s) (k := fun _ => (emissionOrder s).forM (emitStep s)) (sized s)
    with ⟨_, h⟩ | ⟨u, st, hset, h⟩ <;> rw [h] at hdone
  · exact absurd hdone (by simp)
  obtain ⟨st₁, st₂, hr, hlog⟩ := trace_of_log hdone hm
  obtain ⟨v, hv⟩ := log_of_callsFunction hc hr
  refine ⟨v, ?_⟩
  rw [walkTrace, hset]
  exact hlog _ hv

theorem callsResolved_of_ownCalls (h : OwnCalls s) : CallsResolved s := by
  intro f b i e he
  refine ⟨fun g v heq => ?_, fun e' v heq => ?_⟩
  · subst heq
    obtain ⟨f', b', i', hstep, hm, hc⟩ := calls_of_mem he
    cases hstep
    exact (functionValue_iff he).2 (Nat.le_of_eq (h f b i g hm hc))
  · subst heq
    exact externalFunctionValue_eq he

/-- What a function of its own calls looks up is its own. -/
theorem ownOf_of_mem (h : OwnCalls s) (hsep : Separate s) {f : FunctionIdx} {e : Event}
    (he : e ∈ functionLog s f) : e.OwnOf s f := by
  obtain ⟨step, rfl, hm⟩ := mem_functionLog.1 he
  cases e with
  | functionValue g v =>
    obtain ⟨f, b, i, rfl, hi, hc⟩ := calls_of_mem hm
    exact h f b i g hi hc
  | registerValue r v =>
    obtain ⟨ho, _, hlog⟩ := log_of_walkTrace hm
    exact (own_of_log hsep ho hlog).1 r v rfl
  | blockValue c v =>
    obtain ⟨ho, _, hlog⟩ := log_of_walkTrace hm
    exact (own_of_log hsep ho hlog).2 c v rfl
  | _ => trivial

/-- The emission in the other order runs to its end. -/
theorem walk_permute (σ : Equiv.Perm (Fin s.functions.length)) (ha : Apart s)
    (hown : ∀ f < s.functions.length, ∀ e ∈ functionLog s f, e.OwnOf s f)
    (hdone : (emit s (sized s)).result.isSome = true) {st₀ : LlvmIrStorage} {u : Unit}
    (hset : (setup s (sized s)).result = some (u, st₀)) {k : Nat} (hk : k ≤ s.functions.length) :
    ∃ log st, Walk (emitFunction (permuteFunctions s σ)) (List.range k) st₀ log st := by
  induction k with
  | zero => exact ⟨[], st₀, .nil st₀⟩
  | succ k ih =>
    obtain ⟨log, st, hw⟩ := ih (Nat.le_of_succ_le hk)
    obtain ⟨f, hf, rfl⟩ := exists_renameFunction σ hk
    obtain ⟨_, st', hr⟩ := emitFunction_permute σ ha hown hdone hf hset hw
    rw [List.range_succ]
    exact ⟨_, st', hw.snoc hr⟩

theorem orderIrrelevant_of_ownCalls (hv : verifyStorage s = .ok ())
    (hdone : (emit s (sized s)).result.isSome = true) (h : OwnCalls s) (hsep : Separate s) :
    OrderIrrelevant s := by
  intro σ f hf
  have ha := apart_of_accepted hv hsep.blocks
  have hown : ∀ f < s.functions.length, ∀ e ∈ functionLog s f, e.OwnOf s f :=
    fun f _ e he => ownOf_of_mem h hsep he
  obtain ⟨u, st₀, _, _, _, hset, _, _⟩ := walk_to hdone hf
  have hlt : renameFunction σ f < s.functions.length := (renameFunction_lt σ).2 hf
  obtain ⟨log, st, hw⟩ := walk_permute σ ha hown hdone hset (Nat.le_of_lt hlt)
  have hset' := setup_permute σ ▸ hset
  rw [functionLog_eq hset' (by simpa using hlt) hw]
  exact (emitFunction_permute σ ha hown hdone hf hset hw).1

/-- A callee that is found in every order is the function itself: in the order that swaps the two,
the caller comes first. -/
theorem ownCalls_of_resolved (hdone : (emit s (sized s)).result.isSome = true)
    (hres : CallsResolved s) (hord : OrderIrrelevant s) : OwnCalls s := by
  intro f b i g hm hc
  obtain ⟨v, hmem⟩ := mem_of_calls hdone hm hc
  obtain rfl := (hres f b i _ hmem).1 g v rfl
  have hgf : g ≤ f := (functionValue_iff hmem).1 rfl
  have hf : f < s.functions.length := (mem_emissionOrder.1 hm).1
  have hg := Nat.lt_of_le_of_lt hgf hf
  let σ : Equiv.Perm (Fin s.functions.length) := Equiv.swap ⟨f, hf⟩ ⟨g, hg⟩
  have hfg : renameFunction σ f = g := by simp [renameFunction_of_lt σ hf, σ]
  have hgf' : renameFunction σ g = f := by simp [renameFunction_of_lt σ hg, σ]
  -- the lookup of the caller, renamed, is one of the function that now stands in its place
  have hrenamed : .functionValue f (some (.function f)) ∈ functionLog (permuteFunctions s σ) g := by
    have hlog := hord σ f hf
    rw [hfg] at hlog
    rw [hlog]
    refine List.mem_map.2 ⟨_, mem_functionLog.2 ⟨_, rfl, hmem⟩, ?_⟩
    simp [Event.rename, Pointer.rename, Value.rename, hgf']
  obtain ⟨step, hfunc, hstep⟩ := mem_functionLog.1 hrenamed
  obtain ⟨f', b', i', rfl, _, _⟩ := calls_of_mem hstep
  cases hfunc
  exact Nat.le_antisymm hgf ((functionValue_iff hstep).1 rfl)

/-- Two functions of one block each. The first one calls `callee`, and both return. -/
def firstCalls (callee : FunctionIdx) : Storage where
  functions := [⟨⟨0, ⟨0, 0⟩, 0⟩, ⟨0, 1⟩⟩, ⟨⟨0, ⟨0, 0⟩, 1⟩, ⟨1, 1⟩⟩]
  blocks := [⟨⟨0, 2⟩, ⟨0, 0⟩⟩, ⟨⟨2, 1⟩, ⟨0, 0⟩⟩]
  blockParams := []
  instrs := [⟨.call, .add, none, ⟨0, 1⟩⟩, ⟨.ret, .add, none, ⟨1, 0⟩⟩, ⟨.ret, .add, none, ⟨1, 0⟩⟩]
  immutables := []
  registers := []
  externalFunctions := []
  operands := [⟨.function callee, 0⟩]
  types := [⟨.void, 0⟩]
  structTypes := []
  arrayTypes := []
  enumTypes := []
  enumVariantTypes := []
  refTypes := []
  tupleTypes := []

theorem emissionOrder_firstCalls (callee : FunctionIdx) : emissionOrder (firstCalls callee) =
    [.declareFunction 0, .declareBlock 0 0, .enterPhis 0 0, .enterBody 0 0, .instr 0 0 0,
      .instr 0 0 1, .declareFunction 1, .declareBlock 1 1, .enterPhis 1 1, .enterBody 1 1,
      .instr 1 1 2] :=
  rfl

end Alcy.Codegen
