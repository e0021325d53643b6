import Alcy.Codegen.Lowered

/-! # The maps when the emission is done

An entry of the maps is written once, so what an instruction finds is what the maps hold at the end.
The emitted module is then a function of the maps at the end: each block lists what its instructions
come to (`instrs_eq`), in their order.
-/
namespace Alcy.Codegen

open Alcy.Ir Alcy.Lib Alcy.Lib.Traced Alcy.Lib.Llvm

variable {s : Storage}

/-- The emission of an accepted storage that lists no block twice, finishes and looks up nothing in
vain, with the maps it leaves. -/
structure Done (s : Storage) (fin : LlvmIrStorage) : Prop where
  accepted : verifyStorage s = .ok ()
  unshared : BlocksUnshared s
  result : (emit s (sized s)).result = some ((), fin)
  found : ∀ e ∈ (emit s (sized s)).log, e.Found

theorem Event.Found.clean {e : Event} (h : e.Found) : e.Clean := by
  cases e <;> simp_all [Event.Found, Event.isFound, Event.Clean, Event.isNull]

/-! ## Reading the order of emission -/

/-- What is collected from one block of one function. -/
theorem flatMap_emissionOrder {α : Type} {g : Step → List α} {h : Nat → Nat → List α} {f b : Nat}
    (hu : BlocksUnshared s) (hf : f < s.functions.length) (hb : b ∈ blocksOf s f)
    (hfunction : ∀ f', (functionSteps s f').flatMap g = (blocksOf s f').flatMap (h f'))
    (hother : ∀ f', ∀ b' ≠ b, h f' b' = []) : (emissionOrder s).flatMap g = h f b := by
  rw [emissionOrder, List.flatMap_assoc, flatMap_single List.nodup_range (List.mem_range.2 hf)
    fun f' hf' hne => ?_, hfunction]
  · have hn : (blocksOf s f).Nodup := nodup_positions ..
    exact flatMap_single hn hb fun b' _ hne => hother f b' hne
  · rw [hfunction]
    refine List.flatMap_eq_nil_iff.2 fun b' hb' => hother f' b' ?_
    rintro rfl
    exact hne (hu f' (List.mem_range.1 hf') f hf b' hb' hb)

theorem flatMap_functionSteps {α : Type} (g : Step → List α) (f : Nat) :
    (functionSteps s f).flatMap g = g (.declareFunction f) ++
      ((blocksOf s f).flatMap (fun b => g (.declareBlock f b)) ++
        (blocksOf s f).flatMap (fun b => (phiSteps s f b).flatMap g) ++
        (blocksOf s f).flatMap fun b => (bodySteps s f b).flatMap g) := by
  rw [functionSteps, List.flatMap_cons, List.flatMap_append, List.flatMap_append, List.flatMap_map,
    List.flatMap_assoc, List.flatMap_assoc]

/-- What is collected from the instructions of a block. -/
theorem flatMap_instrs {α : Type} {g : Step → List α} {f b : Nat} (hu : BlocksUnshared s)
    (hf : f < s.functions.length) (hb : b ∈ blocksOf s f)
    (hg : ∀ step, (∀ f' i, step ≠ .instr f' b i) → g step = []) :
    (emissionOrder s).flatMap g =
      (positions s.blocks b Block.instrs).flatMap fun i => g (.instr f b i) := by
  have hnil {β : Type} {l : List β} {k : β → List α} (h : ∀ x, k x = []) : l.flatMap k = [] :=
    List.flatMap_eq_nil_iff.2 fun x _ => h x
  refine flatMap_emissionOrder (h := fun f' b' =>
    (positions s.blocks b' Block.instrs).flatMap fun i => g (.instr f' b' i)) hu hf hb
    (fun f' => ?_) fun f' b' hne => hnil fun i => hg _ fun f'' i' he => hne (by cases he; rfl)
  have hphis (b' : Nat) : (phiSteps s f' b').flatMap g = [] := List.flatMap_eq_nil_iff.2
    fun step hstep => hg step fun f'' i he => by simp [mem_phiSteps, he] at hstep
  have hbody (b' : Nat) : (bodySteps s f' b').flatMap g =
      (positions s.blocks b' Block.instrs).flatMap fun i => g (.instr f' b' i) := by
    rw [bodySteps, List.flatMap_cons, hg (.enterBody f' b') (by simp), List.nil_append, List.flatMap_map]
  rw [flatMap_functionSteps, hg (.declareFunction f') (by simp),
    hnil fun b' => hg (.declareBlock f' b') (by simp), hnil hphis, List.nil_append,
    List.nil_append, List.nil_append]
  exact List.flatMap_congr fun b' _ => hbody b'

/-- What is collected from the parameters of a block. -/
theorem flatMap_phis {α : Type} {g : Step → List α} {f b : Nat} (hu : BlocksUnshared s)
    (hf : f < s.functions.length) (hb : b ∈ blocksOf s f)
    (hg : ∀ step, (∀ f' p, step ≠ .phi f' b p) → g step = []) :
    (emissionOrder s).flatMap g =
      (positions s.blocks b Block.blockParams).flatMap fun p => g (.phi f b p) := by
  have hnil {β : Type} {l : List β} {k : β → List α} (h : ∀ x, k x = []) : l.flatMap k = [] :=
    List.flatMap_eq_nil_iff.2 fun x _ => h x
  refine flatMap_emissionOrder (h := fun f' b' =>
    (positions s.blocks b' Block.blockParams).flatMap fun p => g (.phi f' b' p)) hu hf hb
    (fun f' => ?_) fun f' b' hne => hnil fun p => hg _ fun f'' p' he => hne (by cases he; rfl)
  have hphis (b' : Nat) : (phiSteps s f' b').flatMap g =
      (positions s.blocks b' Block.blockParams).flatMap fun p => g (.phi f' b' p) := by
    rw [phiSteps, List.flatMap_cons, hg (.enterPhis f' b') (by simp), List.nil_append, List.flatMap_map]
  have hbody (b' : Nat) : (bodySteps s f' b').flatMap g = [] := List.flatMap_eq_nil_iff.2
    fun step hstep => hg step fun f'' p he => by simp [mem_bodySteps, he] at hstep
  rw [flatMap_functionSteps, hg (.declareFunction f') (by simp),
    hnil fun b' => hg (.declareBlock f' b') (by simp), hnil hbody, List.nil_append,
    List.nil_append, List.append_nil]
  exact List.flatMap_congr fun b' _ => hphis b'

/-! ## What the maps hold -/

/-- The maps of blocks and immediates hold what was made for the entry. -/
structure Named (st : LlvmIrStorage) : Prop where
  blocks : ∀ b v, st.blocks[b]? = some (some v) → v = Value.block b
  immutables : ∀ k v, st.immutables[k]? = some (some v) → v = Value.immutable k

theorem named_sized (s : Storage) : Named (sized s) := by
  constructor <;>
  · intro k v h
    simp only [sized, List.getElem?_replicate] at h
    split at h <;> simp at h

/-- The set-up keeps the names. -/
theorem setup_named : Preserves (fun st st' => Named st → Named st') (setup s) := by
  have : Std.Refl fun st st' : LlvmIrStorage => Named st → Named st' := ⟨fun _ h => h⟩
  have : IsTrans LlvmIrStorage fun st st' => Named st → Named st' :=
    ⟨fun _ _ _ h h' hn => h' (h hn)⟩
  refine .bind (.forM fun k _ => ?_) fun _ => .forM fun e _ => ?_
  · refine (looks_fetch ..).then fun imm => (looks_fetch ..).then fun node =>
      (looks_constant imm node.tag).then fun c => looks_get.then fun _ => (looks_fetch ..).then
      fun _ => .tellThen (.modify fun st hn => ⟨hn.blocks, fun j v hv => ?_⟩)
    rcases getElem?_declared hv with ⟨rfl, heq⟩ | ⟨_, hold⟩
    exacts [Option.some.inj heq, hn.immutables j v hold]
  · exact (looks_fetch ..).then fun func => (looks_createFunction _).then fun _ =>
      looks_get.then fun _ => (looks_fetch ..).then fun _ =>
      .tellThen (.modify fun _ hn => ⟨hn.blocks, hn.immutables⟩)

/-- A step keeps the names. -/
theorem Named.step {st st' : LlvmIrStorage} {step : Step} (h : Named st)
    (hr : (emitStep s step st).result = some ((), st')) : Named st' := by
  obtain ⟨reads, writes, hs⟩ := emits_step step st
  have ha := hs.after () st' hr
  refine ⟨fun b v hv => ?_, fun k v hv => h.immutables k v (ha.immutables ▸ hv)⟩
  rw [ha.blocks] at hv
  unfold blocksAfter at hv
  split at hv
  · rcases getElem?_declared hv with ⟨rfl, heq⟩ | ⟨_, hold⟩
    exacts [Option.some.inj heq, h.blocks b v hold]
  · exact h.blocks b v hv

theorem Named.walk {before : List Step} {log : List Event} {st st' : LlvmIrStorage}
    (h : Named st) (hw : Walk (emitStep s) before st log st') : Named st' := by
  induction hw with
  | nil => exact h
  | snoc _ last ih => exact (ih h).step last

/-- An entry that an `Alloca` writes. -/
def Step.allocates (s : Storage) (step : Step) (r : RegisterIdx) : Prop :=
  ∃ f b i instr, step = .instr f b i ∧ s.instrs[i]? = some instr ∧ instr.op = .alloca ∧
    instr.dst = some r

/-- The steps that are not instructions allocate nothing. -/
theorem allocaTypes_declare {step : Step} (h : ∀ f b i, step ≠ .instr f b i) :
    Preserves (fun st st' => st'.allocaTypes = st.allocaTypes) (emitStep s step) := by
  cases step with
  | declareFunction f =>
    simp only [emitStep, declareFunction, bind_assoc, pure_bind, bind_pure_unit]
    exact (looks_fetch ..).then fun func => (looks_createFunction _).then fun _ =>
      looks_get.then fun _ => (looks_fetch ..).then fun _ => .tellThen (.modify fun _ => rfl)
  | declareBlock f b =>
    exact looks_get.then fun _ => (looks_fetch ..).then fun _ => .tellThen (.modify fun _ => rfl)
  | enterPhis f b | enterBody f b =>
    simp only [emitStep, enterBlock, setInsertPoint, bind_assoc, pure_bind, bind_pure_unit]
    exact (looks_fetch ..).then fun _ => (looks_blockValue _).then fun _ => .modify fun _ => rfl
  | phi f b p =>
    refine (looks_fetch ..).then fun param => (looks_type _).then fun _ => .tellThen ?_
    exact looks_get.then fun _ => (looks_fetch ..).then fun _ => .tellThen (.modify fun _ => rfl)
  | instr f b i => exact absurd rfl (h f b i)

/-- An instruction of the walk, as the emission leaves it. -/
theorem lowers_step {f b i : Nat} {st st' : LlvmIrStorage}
    (hr : (emitStep s (.instr f b i) st).result = some ((), st'))
    (hf : ∀ e ∈ (emitStep s (.instr f b i) st).log, e.Found) :
    ∃ instr, s.instrs[i]? = some instr ∧
      Lowers s st i instr ((emitStep s (.instr f b i) st).log.filter Event.isRequest) st' :=
  Finds.bind (P := fun instr => s.instrs[i]? = some instr)
    (Q := fun _ l st' => ∃ instr, s.instrs[i]? = some instr ∧ Lowers s st i instr l st')
    finds_fetch (fun instr hi => (lowers_instruction s st i instr).mono fun _ _ _ h =>
      ⟨instr, hi, h⟩) () st' hr hf

/-- What a step does to the types of allocations. -/
theorem allocaTypes_step {st st' : LlvmIrStorage} {step : Step}
    (hr : (emitStep s step st).result = some ((), st'))
    (hf : ∀ e ∈ (emitStep s step st).log, e.Found) :
    (st'.allocaTypes = st.allocaTypes ∧ ∀ r, ¬ step.allocates s r) ∨
      ∃ r reg ty, step.allocates s r ∧ s.registers[r]? = some reg ∧ layout s reg.type = some ty ∧
        r < st.allocaTypes.length ∧ st'.allocaTypes = st.allocaTypes.set r (some ty) := by
  by_cases hstep : ∃ f b i, step = .instr f b i
  · obtain ⟨f, b, i, rfl⟩ := hstep
    obtain ⟨instr, hi, hl⟩ := lowers_step hr hf
    have hnot (h : instr.op ≠ .alloca ∨ instr.dst = none) (r : RegisterIdx) :
        ¬ Step.allocates s (.instr f b i) r := by
      rintro ⟨f', b', i', instr', he, hi', hop, hdst⟩
      cases he
      cases hi.symm.trans hi'
      rcases h with h | h
      exacts [h hop, by simp [h] at hdst]
    generalize List.filter Event.isRequest _ = requests at hl
    cases hl with
    | skip h =>
      refine .inl ⟨rfl, hnot ?_⟩
      rcases h with h | h | h
      exacts [.inl (by simp [h]), .inl (by simp [h]), .inr h.2]
    | aliased h => exact .inl ⟨rfl, hnot (.inl (by rcases h with h | h <;> simp [h]))⟩
    | br hop => exact .inl ⟨rfl, hnot (.inl (by simp [hop]))⟩
    | build hop hcast hdst hvs hindices htypes halloca =>
      by_cases hop : instr.op = .alloca
      · obtain ⟨r, hdr⟩ := Option.ne_none_iff_exists'.1 (hdst (by rw [hop]; rfl))
        obtain ⟨ty, hty, hlt, rfl⟩ := halloca r hop hdr
        rw [dstLayout, hdr, Option.bind_eq_bind, Option.bind_some] at hty
        obtain ⟨reg, hreg, hty⟩ := Option.bind_eq_some_iff.1 hty
        exact .inr ⟨r, reg, ty, ⟨f, b, i, instr, rfl, hi, hop, hdr⟩, hreg, hty, hlt, rfl⟩
      · exact .inl ⟨htypes hop, hnot (.inl hop)⟩
  · have hne : ∀ f b i, step ≠ .instr f b i := fun f b i h => hstep ⟨f, b, i, h⟩
    refine .inl ⟨allocaTypes_declare hne st () st' hr, fun r h => ?_⟩
    obtain ⟨f, b, i, _, h, _⟩ := h
    exact hne f b i h

/-- The allocations that were emitted have their types. -/
def Allocated (s : Storage) (before : List Step) (st : LlvmIrStorage) : Prop :=
  ∀ d ∈ before, ∀ r, d.allocates s r → ∃ reg ty, s.registers[r]? = some reg ∧
    layout s reg.type = some ty ∧ st.allocaTypes[r]? = some (some ty)

theorem Allocated.step {before : List Step} {st st' : LlvmIrStorage} {step : Step}
    (h : Allocated s before st) (hr : (emitStep s step st).result = some ((), st'))
    (hf : ∀ e ∈ (emitStep s step st).log, e.Found) : Allocated s (before ++ [step]) st' := by
  intro d hd r hdr
  rcases allocaTypes_step hr hf with ⟨heq, hnot⟩ | ⟨q, reg, ty, hq, hreg, hty, hlt, heq⟩
  · rcases List.mem_append.1 hd with hd | hd
    · rw [heq]
      exact h d hd r hdr
    · exact absurd (List.mem_singleton.1 hd ▸ hdr) (hnot r)
  · rw [heq, List.getElem?_set]
    by_cases hqr : q = r
    · subst hqr
      exact ⟨reg, ty, hreg, hty, by simp [hlt]⟩
    · rw [if_neg hqr]
      rcases List.mem_append.1 hd with hd | hd
      · exact h d hd r hdr
      · -- The step allocates one register only.
        obtain ⟨f, b, i, instr, rfl, hi, _, hdst⟩ := hq
        obtain ⟨f', b', i', instr', he, hi', _, hdst'⟩ := List.mem_singleton.1 hd ▸ hdr
        cases he
        cases hi.symm.trans hi'
        exact absurd (Option.some.inj (hdst.symm.trans hdst')) hqr

theorem Allocated.walk {before : List Step} {log : List Event} {st st' : LlvmIrStorage}
    (hw : Walk (emitStep s) before st log st') (hf : ∀ e ∈ log, e.Found) :
    Allocated s before st' := by
  induction hw with
  | nil => exact fun d hd => nomatch hd
  | snoc _ last ih =>
    obtain ⟨h₁, h₂⟩ := List.forall_mem_append.1 hf
    exact (ih h₁).step last h₂

/-! ## An emission that is done -/

/-- The emission declares the block. -/
def Listed (s : Storage) (b : BlockIdx) : Prop := ∃ f < s.functions.length, b ∈ blocksOf s f

/-- The value that an operand stands for in the module. -/
def Names (s : Storage) (fin : LlvmIrStorage) (o : Operand) (v : Value) : Prop :=
  match o.data with
  | .register r => fin.registers[r]? = some (some v)
  | .block b => v = .block b ∧ Listed s b
  | .immutable k => v = .immutable k
  | .function f => v = .function f
  | .externalFunction e => v = .externalFunction e
  | .void => False

def NamesAt (s : Storage) (fin : LlvmIrStorage) (i : Instruction) (k : Nat) (v : Value) : Prop :=
  ∃ o, s.operands[i.operands.head + k]? = some o ∧ Names s fin o v

/-- A step of an emission that is done, with the maps it found and those it left. -/
structure Reached (s : Storage) (fin : LlvmIrStorage) (before : List Step) (step : Step)
    (st st' : LlvmIrStorage) : Prop where
  result : (emitStep s step st).result = some ((), st')
  found : ∀ e ∈ (emitStep s step st).log, e.Found
  walked : ∃ st₀ log, Walk (emitStep s) before st₀ log st ∧ Named st₀ ∧ ∀ e ∈ log, e.Found
  tracks : ∃ log, Tracks s before log st ∧ ∀ e ∈ log, e.Clean
  named : Named st
  allocated : Allocated s before st
  kept : ∀ (r : RegisterIdx) (v : Value), st.registers[r]? = some (some v) →
    fin.registers[r]? = some (some v)
  kept' : ∀ (r : RegisterIdx) (v : Value), st'.registers[r]? = some (some v) →
    fin.registers[r]? = some (some v)

/-- A walk that does not write an entry leaves it. -/
theorem registers_walk {steps : List Step} {log : List Event} {st st' : LlvmIrStorage}
    {r : RegisterIdx} (hw : Walk (emitStep s) steps st log st')
    (h : ∀ d ∈ steps, d.writes s ≠ some r) : st'.registers[r]? = st.registers[r]? := by
  induction hw with
  | nil => rfl
  | @snoc steps st st₁ st₂ log step _ last ih =>
    obtain ⟨h₁, h₂⟩ := List.forall_mem_append.1 h
    rw [← ih h₁]
    obtain ⟨reads, writes, hs⟩ := emits_step step st₁
    have ha := hs.after () st₂ last
    cases hwr : step.writes s with
    | none => rw [ha.noRegister hwr]
    | some q =>
      obtain ⟨v, _, _, hset, _⟩ := ha.register q hwr
      have hne : q ≠ r := fun he => h₂ step (List.mem_singleton_self _) (he ▸ hwr)
      rw [hset, List.getElem?_set_ne hne]

/-- **An entry that is written is settled.** -/
theorem registers_kept (hv : verifyStorage s = .ok ()) (hu : BlocksUnshared s)
    {before after : List Step} {log log' : List Event} {st fin : LlvmIrStorage}
    (ho : emissionOrder s = before ++ after) (ht : Tracks s before log st)
    (hclean : ∀ e ∈ log, e.Clean) (hw : Walk (emitStep s) after st log' fin) {r : RegisterIdx}
    {v : Value} (hr : st.registers[r]? = some (some v)) : fin.registers[r]? = some (some v) := by
  obtain ⟨d, hd, hdw⟩ := (ht.registers hclean r _ hr).1 rfl
  rw [registers_walk hw fun e he hew => ?_, hr]
  have hmem (x : Step) (hx : x ∈ before ∨ x ∈ after) : x ∈ emissionOrder s :=
    ho ▸ List.mem_append.2 hx
  obtain rfl := writes_unique hv hu (hmem d (.inl hd)) (hmem e (.inr he)) hdw hew
  have hn := nodup_emissionOrder s
  rw [ho] at hn
  exact (List.nodup_append'.1 hn).2.2 hd he

/-- **The stages of an emission that is done.** -/
theorem Done.stages {fin : LlvmIrStorage} (h : Done s fin) : ∃ start : Step → LlvmIrStorage,
    emission s = (emissionOrder s).map (fun x => (x, start x)) ∧
    ∀ before x after, emissionOrder s = before ++ x :: after →
      ∃ st', Reached s fin before x (start x) st' := by
  have hres := h.result
  have hfound := h.found
  rw [emit_eq_walk] at hres hfound
  rcases bind_cases (m := setup s) (k := fun _ => (emissionOrder s).forM (emitStep s)) (sized s)
    with ⟨_, hb⟩ | ⟨u, st₀, hset, hb⟩ <;> rw [hb] at hres hfound
  · exact nomatch hres
  obtain ⟨start, hmap, hstage⟩ := exists_stages (nodup_emissionOrder s) hres
  refine ⟨start, by rw [emission, hset, Option.elim_some, hmap], fun before x after ho => ?_⟩
  obtain ⟨⟨log, hw, hsub⟩, ⟨st', log', hr, hrest⟩, hlogged⟩ := hstage before x after ho
  have hall (e : Event) (he : e ∈ ((emissionOrder s).forM (emitStep s) st₀).log) : e.Found :=
    hfound e (List.mem_append_right _ he)
  have hlog (e : Event) (he : e ∈ log) : e.Found := hall e (hsub e he)
  have hstep (e : Event) (he : e ∈ (emitStep s x (start x)).log) : e.Found := hall e (hlogged e he)
  have ht : Tracks s before log (start x) := Tracks.walk hset hw
  have hclean (e : Event) (he : e ∈ log) : e.Clean := (hlog e he).clean
  have hn : Named st₀ := setup_named _ _ _ hset (named_sized s)
  refine ⟨st', hr, hstep, ⟨st₀, log, hw, hn, hlog⟩, ⟨log, ht, hclean⟩, hn.walk hw, .walk hw hlog,
    fun r v hv => ?_, fun r v hv => ?_⟩
  · exact registers_kept h.accepted h.unshared ho ht hclean (hrest.cons hr) hv
  · have ho' : emissionOrder s = (before ++ [x]) ++ after := by simpa using ho
    refine registers_kept h.accepted h.unshared ho' (ht.step hr) (fun e he => ?_) hrest hv
    rcases List.mem_append.1 he with he | he
    exacts [hclean e he, (hstep e he).clean]

theorem join_eq_some {l : List Pointer} {k : Nat} {v : Value} (h : (l[k]?).join = some v) :
    l[k]? = some (some v) := by
  cases hl : l[k]? with
  | none => rw [hl] at h; cases h
  | some w => rw [hl] at h; exact congrArg some h

/-- What a step finds for an operand is what stands for it in the module. -/
theorem Reached.held {fin : LlvmIrStorage} {before : List Step} {step : Step}
    {st st' : LlvmIrStorage} (h : Reached s fin before step st st')
    (ho : before ⊆ emissionOrder s) {o : Operand} {v : Value} (hv : held st o = some v) :
    Names s fin o v := by
  obtain ⟨log, ht, _⟩ := h.tracks
  unfold Codegen.held at hv
  unfold Names
  cases hd : o.data <;> rw [hd] at hv <;> simp only at hv ⊢
  case register r => exact h.kept r v (join_eq_some hv)
  case block b =>
    have hb := join_eq_some hv
    obtain ⟨d, hd, hdecl⟩ := (ht.blocks b _ hb).1 rfl
    refine ⟨h.named.blocks b v hb, ?_⟩
    cases d with
    | declareBlock f c =>
      cases hdecl
      obtain ⟨hf, hm⟩ := mem_emissionOrder.1 (ho hd)
      exact ⟨f, hf, by simpa [mem_functionSteps, mem_phiSteps, mem_bodySteps, Step.func] using hm⟩
    | _ => cases hdecl
  case immutable k => exact h.named.immutables k v (join_eq_some hv)
  case function f =>
    rcases ht.functions f _ (join_eq_some hv) with ⟨h, _⟩ | ⟨h, _⟩
    exacts [Option.some.inj h, nomatch h]
  case externalFunction e => exact Option.some.inj (ht.externalFunctions e _ (join_eq_some hv))
  case void => exact nomatch hv

theorem Reached.heldAt {fin : LlvmIrStorage} {before : List Step} {step : Step}
    {st st' : LlvmIrStorage} (h : Reached s fin before step st st')
    (ho : before ⊆ emissionOrder s) {i : Instruction} {k : Nat} {v : Value}
    (hv : Codegen.heldAt s st i k = some v) : NamesAt s fin i k v := by
  obtain ⟨o, hop, hv⟩ := Option.bind_eq_some_iff.1 hv
  exact ⟨o, hop, h.held ho hv⟩

end Alcy.Codegen
