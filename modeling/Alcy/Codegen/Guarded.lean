import Alcy.Codegen.Steps
import Mathlib.Data.List.Nodup

/-! # The value maps of an accepted storage

The verifier collects the definitions of all blocks before it looks at an operand, so it accepts a
use that the emitter meets before the definition, a definition in a block that no function lists,
and a destination of an instruction that yields no value. What it guarantees is that a register has
one definition. The emitter's maps then hold exactly the definitions the walk has passed.
-/
namespace Alcy.Codegen

open Alcy.Ir Alcy.Lib Alcy.Lib.Traced

variable {s : Storage}

/-- The events of the walk over the functions, each with its step. Nothing is walked when the
set-up of immediates and external functions stops. -/
def walkTrace (s : Storage) : List (Step × Event) :=
  (setup s (sized s)).result.elim [] fun r => trace (emitStep s) (emissionOrder s) r.2

/-- **The trace is what `emit` logs** after its set-up. -/
theorem emit_log (s : Storage) :
    (emit s (sized s)).log = (setup s (sized s)).log ++ (walkTrace s).map Prod.snd := by
  rw [emit_eq_walk, walkTrace]
  rcases bind_cases (m := setup s) (k := fun _ => (emissionOrder s).forM (emitStep s)) (sized s)
    with ⟨hr, h⟩ | ⟨u, st, hr, h⟩
  · rw [h, hr, Option.elim_none, List.map_nil, List.append_nil]
  · rw [h, hr, Option.elim_some, map_trace]

/-! ## The order of emission -/

theorem mem_positions {α : Type} {table : List α} {idx i : Nat} {range : α → IdxRange} :
    i ∈ positions table idx range ↔ ∃ a, table[idx]? = some a ∧ i ∈ (range a).toList := by
  unfold positions
  cases table[idx]? <;> simp

theorem nodup_positions {α : Type} (table : List α) (idx : Nat) (range : α → IdxRange) :
    (positions table idx range).Nodup := by
  unfold positions
  cases table[idx]? with
  | none => exact List.nodup_nil
  | some a => exact List.nodup_range'

/-- The steps of a function: what each of its loops visits. -/
theorem mem_functionSteps {f : FunctionIdx} {step : Step} : step ∈ functionSteps s f ↔
    step = .declareFunction f ∨ (∃ b ∈ blocksOf s f, step = .declareBlock f b) ∨
    (∃ b ∈ blocksOf s f, step ∈ phiSteps s f b) ∨
    ∃ b ∈ blocksOf s f, step ∈ bodySteps s f b := by
  simp only [functionSteps, List.mem_cons, List.mem_append, List.mem_map, List.mem_flatMap,
    or_assoc, eq_comm (a := step)]

theorem mem_phiSteps {f b : Nat} {step : Step} : step ∈ phiSteps s f b ↔
    step = .enterPhis f b ∨ ∃ p ∈ positions s.blocks b Block.blockParams, step = .phi f b p := by
  simp only [phiSteps, List.mem_cons, List.mem_map, eq_comm (a := step)]

theorem mem_bodySteps {f b : Nat} {step : Step} : step ∈ bodySteps s f b ↔
    step = .enterBody f b ∨ ∃ i ∈ positions s.blocks b Block.instrs, step = .instr f b i := by
  simp only [bodySteps, List.mem_cons, List.mem_map, eq_comm (a := step)]

/-- Every step of a function belongs to it. -/
theorem func_of_mem {f : FunctionIdx} {step : Step} (h : step ∈ functionSteps s f) :
    step.func = f := by
  rcases mem_functionSteps.1 h with rfl | ⟨b, _, rfl⟩ | ⟨b, _, h⟩ | ⟨b, _, h⟩
  · rfl
  · rfl
  · rcases mem_phiSteps.1 h with rfl | ⟨p, _, rfl⟩ <;> rfl
  · rcases mem_bodySteps.1 h with rfl | ⟨i, _, rfl⟩ <;> rfl

theorem mem_emissionOrder {step : Step} : step ∈ emissionOrder s ↔
    step.func < s.functions.length ∧ step ∈ functionSteps s step.func := by
  simp only [emissionOrder, List.mem_flatMap, List.mem_range]
  constructor
  · rintro ⟨f, hf, h⟩
    obtain rfl := func_of_mem h
    exact ⟨hf, h⟩
  · rintro ⟨hf, h⟩
    exact ⟨_, hf, h⟩

theorem nodup_functionSteps (f : FunctionIdx) : (functionSteps s f).Nodup := by
  have hb : (blocksOf s f).Nodup := nodup_positions ..
  have hphis (b : Nat) : (phiSteps s f b).Nodup :=
    List.nodup_cons.2 ⟨by simp, List.Nodup.map (fun p q h => by cases h; rfl) (nodup_positions ..)⟩
  have hbody (b : Nat) : (bodySteps s f b).Nodup :=
    List.nodup_cons.2 ⟨by simp, List.Nodup.map (fun p q h => by cases h; rfl) (nodup_positions ..)⟩
  refine List.nodup_cons.2 ⟨fun h => ?_, List.nodup_append'.2 ⟨List.nodup_append'.2 ⟨?_, ?_, ?_⟩,
    ?_, ?_⟩⟩
  · simp [mem_phiSteps, mem_bodySteps] at h
  · exact List.Nodup.map (fun p q h => by cases h; rfl) hb
  · refine List.nodup_flatMap.2 ⟨fun b _ => hphis b, hb.imp fun {b c} hne step h₁ h₂ => hne ?_⟩
    rcases mem_phiSteps.1 h₁ with rfl | ⟨p, _, rfl⟩ <;>
      rcases mem_phiSteps.1 h₂ with h | ⟨q, _, h⟩ <;> cases h <;> rfl
  · intro step h₁ h₂
    obtain ⟨b, _, rfl⟩ := List.mem_map.1 h₁
    simp [mem_phiSteps] at h₂
  · refine List.nodup_flatMap.2 ⟨fun b _ => hbody b, hb.imp fun {b c} hne step h₁ h₂ => hne ?_⟩
    rcases mem_bodySteps.1 h₁ with rfl | ⟨p, _, rfl⟩ <;>
      rcases mem_bodySteps.1 h₂ with h | ⟨q, _, h⟩ <;> cases h <;> rfl
  · intro step h₁ h₂
    obtain ⟨b, _, h₂⟩ := List.mem_flatMap.1 h₂
    rcases mem_bodySteps.1 h₂ with rfl | ⟨p, _, rfl⟩ <;> simp [mem_phiSteps] at h₁

/-- The walk visits nothing twice. -/
theorem nodup_emissionOrder (s : Storage) : (emissionOrder s).Nodup :=
  List.nodup_flatMap.2 ⟨fun f _ => nodup_functionSteps f, List.nodup_range.imp
    fun {_ _} hne _ h₁ h₂ => hne ((func_of_mem h₁).symm.trans (func_of_mem h₂))⟩

/-- `a` comes before `b` in the walk. -/
def Earlier (s : Storage) (a b : Step) : Prop := [a, b].Sublist (emissionOrder s)

theorem earlier_iff {before after : List Step} {a step : Step}
    (ho : emissionOrder s = before ++ step :: after) : Earlier s a step ↔ a ∈ before := by
  have hn := nodup_emissionOrder s
  rw [ho] at hn
  constructor
  · intro h
    rw [Earlier, ho] at h
    have hnot : step ∉ before := fun hm =>
      (List.nodup_append'.1 hn).2.2 hm (List.mem_cons_self ..)
    have hafter : step ∉ after := (List.nodup_cons.1 (List.nodup_append'.1 hn).2.1).1
    obtain ⟨l₁, l₂, hl, h₁, h₂⟩ := List.sublist_append_iff.1 h
    rcases l₁ with _ | ⟨x, l₁⟩
    · -- Both steps would lie at or after the second one.
      obtain rfl : [a, step] = l₂ := hl
      have := h₂.subset (List.mem_cons_self ..)
      rcases List.cons_sublist_cons'.1 h₂ with h | ⟨rfl, h⟩
      · exact absurd (h.subset (List.mem_cons_of_mem _ (List.mem_singleton_self _))) hafter
      · exact absurd (h.subset (List.mem_singleton_self _)) hafter
    · obtain ⟨rfl, _⟩ := List.cons.inj hl
      exact h₁.subset (List.mem_cons_self ..)
  · intro h
    rw [Earlier, ho]
    exact (List.singleton_sublist.2 h).append (List.singleton_sublist.2 (List.mem_cons_self ..))

/-! ## The maps along the walk -/

/-- Nothing in the maps of registers, blocks and functions has changed. -/
def SameMaps (st st' : LlvmIrStorage) : Prop :=
  st'.registers = st.registers ∧ st'.blocks = st.blocks ∧ st'.functions = st.functions

instance : Std.Refl SameMaps := ⟨fun _ => ⟨rfl, rfl, rfl⟩⟩

instance : IsTrans LlvmIrStorage SameMaps :=
  ⟨fun _ _ _ h h' => ⟨h'.1.trans h.1, h'.2.1.trans h.2.1, h'.2.2.trans h.2.2⟩⟩

theorem looks_constant (immutable : Immutable) (tag : TypeTag) :
    Looks (constant s immutable tag) fun _ => True := by
  unfold constant
  split
  · exact (looks_type _).bind fun _ => (looks_orStop _).bind fun _ => .pure fun _ _ => trivial
  split
  · exact (looks_type _).bind fun _ => .pure fun _ => trivial
  split
  · exact .pure trivial
  · exact .stop

theorem setup_sameMaps (s : Storage) : Preserves SameMaps (setup s) := by
  refine .bind (.forM fun i _ => ?_) fun _ => .forM fun i _ => ?_
  · refine (looks_fetch ..).preserves.bind fun imm => (looks_fetch ..).preserves.bind fun node =>
      (looks_constant imm node.tag).preserves.bind fun c => ?_
    exact looks_get.preserves.bind fun _ => (looks_fetch ..).preserves.bind fun _ =>
      (Preserves.tell _).bind fun _ => .modify fun _ => ⟨rfl, rfl, rfl⟩
  · exact (looks_fetch ..).preserves.bind fun func =>
      (looks_createFunction _).preserves.bind fun _ => looks_get.preserves.bind fun _ =>
      (looks_fetch ..).preserves.bind fun _ => (Preserves.tell _).bind fun _ =>
      .modify fun _ => ⟨rfl, rfl, rfl⟩

/-- The entry of an external function, if it has one, is declared. -/
def ExternalDeclared (e : ExternalFunctionIdx) (st : LlvmIrStorage) : Prop :=
  ∀ v, st.externalFunctions[e]? = some v → v = some (Value.externalFunction e)

/-- A map of declarations gains the entry that a step declares. -/
theorem getElem?_declared {l : List Pointer} {b c : Nat} {new v : Pointer}
    (h : (l.set b new)[c]? = some v) : (b = c ∧ v = new) ∨ (b ≠ c ∧ l[c]? = some v) := by
  rw [List.getElem?_set] at h
  by_cases hbc : b = c
  · rw [if_pos hbc] at h
    split at h
    · exact .inl ⟨hbc, (Option.some.inj h).symm⟩
    · exact nomatch h
  · rw [if_neg hbc] at h
    exact .inr ⟨hbc, h⟩

theorem setupImmutables_externals : Preserves
    (fun st st' => st'.externalFunctions = st.externalFunctions)
    ((List.range s.immutables.length).forM (setupImmutable s)) := by
  let R (st st' : LlvmIrStorage) : Prop := st'.externalFunctions = st.externalFunctions
  have : Std.Refl R := ⟨fun _ => rfl⟩
  have : IsTrans LlvmIrStorage R := ⟨fun _ _ _ h h' => h'.trans h⟩
  refine Preserves.forM (R := R) fun i _ => ?_
  exact (looks_fetch ..).then fun imm => (looks_fetch ..).then fun node =>
    (looks_constant imm node.tag).then fun c => looks_get.then fun _ => (looks_fetch ..).then
    fun _ => .tellThen (.modify fun _ => rfl)

theorem setupExternalFunction_set (i : ExternalFunctionIdx) : Preserves
    (fun st st' => st'.externalFunctions =
      st.externalFunctions.set i (some (Value.externalFunction i)))
    (setupExternalFunction s i) :=
  (looks_fetch ..).then fun _ => (looks_createFunction _).then fun _ => looks_get.then fun _ =>
    (looks_fetch ..).then fun _ => .tellThen (.modify fun _ => rfl)

/-- The set-up declares every external function. -/
theorem setup_externals {st : LlvmIrStorage} {u : Unit}
    (h : (setup s (sized s)).result = some (u, st)) (e : ExternalFunctionIdx) :
    ExternalDeclared e st := by
  unfold setup at h
  rcases bind_cases (m := (List.range s.immutables.length).forM (setupImmutable s))
    (k := fun _ => (List.range s.externalFunctions.length).forM (setupExternalFunction s))
    (sized s) with ⟨_, hb⟩ | ⟨_, st₁, hres, hb⟩ <;> rw [hb] at h
  · exact nomatch h
  have hfresh := setupImmutables_externals (sized s) _ st₁ hres
  refine forM_establishes (P := ExternalDeclared) (fun x st u st' hr v hv => ?_)
    (fun x y st u st' hr hold v hv => ?_) h e ?_
  · rw [setupExternalFunction_set x st u st' hr] at hv
    rcases getElem?_declared hv with ⟨_, rfl⟩ | ⟨hne, _⟩
    exacts [rfl, absurd rfl hne]
  · rw [setupExternalFunction_set y st u st' hr] at hv
    rcases getElem?_declared hv with ⟨rfl, rfl⟩ | ⟨_, hv⟩
    exacts [rfl, hold v hv]
  · by_cases hlt : e < s.externalFunctions.length
    · exact .inl (List.mem_range.2 hlt)
    · refine .inr fun v hv => ?_
      rw [hfresh, sized, List.getElem?_replicate, if_neg hlt] at hv
      exact nomatch hv

/-- **The invariant of the walk**: after the steps `before`, the maps hold what those steps wrote.
For registers this takes that no lookup has returned null, since an alias of null is null. -/
structure Tracks (s : Storage) (before : List Step) (log : List Event) (st : LlvmIrStorage) :
    Prop where
  registers : (∀ e ∈ log, e.Clean) → ∀ r v, st.registers[r]? = some v →
    (v.isSome = true ↔ ∃ d ∈ before, d.writes s = some r)
  blocks : ∀ b v, st.blocks[b]? = some v →
    (v.isSome = true ↔ ∃ d ∈ before, d.declares = some (.block b))
  functions : ∀ g v, st.functions[g]? = some v →
    (v = some (.function g) ∧ .declareFunction g ∈ before) ∨
      (v = none ∧ .declareFunction g ∉ before)
  externalFunctions : ∀ e, ExternalDeclared e st

theorem tracks_start {st : LlvmIrStorage} {u : Unit}
    (hset : (setup s (sized s)).result = some (u, st)) : Tracks s [] [] st := by
  have h := setup_sameMaps s (sized s) u st hset
  have hnull {n i : Nat} {v : Pointer} (hv : (List.replicate n none)[i]? = some v) : v = none := by
    rw [List.getElem?_replicate] at hv
    split at hv <;> simp_all
  refine ⟨fun _ r v hr => ?_, fun b v hb => ?_, fun g v hg => ?_, setup_externals hset⟩
  · obtain rfl := hnull (h.1 ▸ hr)
    simp
  · obtain rfl := hnull (h.2.1 ▸ hb)
    simp
  · exact .inr ⟨hnull (h.2.2 ▸ hg), List.not_mem_nil⟩

theorem Tracks.step {before : List Step} {log : List Event} {st st' : LlvmIrStorage} {step : Step}
    (h : Tracks s before log st) (hr : (emitStep s step st).result = some ((), st')) :
    Tracks s (before ++ [step]) (log ++ (emitStep s step st).log) st' := by
  obtain ⟨reads, writes, hs⟩ := emits_step step st
  have ha := hs.after () st' hr
  refine ⟨fun hclean r v hv => ?_, fun b v hv => ?_, fun g v hv => ?_,
    fun e v hv => h.externalFunctions e v (ha.externalFunctions ▸ hv)⟩
  · rw [hs.log] at hclean
    obtain ⟨hlog, hreads, _⟩ := (by simpa only [List.forall_mem_append] using hclean :
      (∀ e ∈ log, e.Clean) ∧ (∀ e ∈ reads, e.Clean) ∧ ∀ e ∈ writes, e.Clean)
    simp only [List.mem_append, List.mem_singleton, or_and_right, exists_or, exists_eq_left]
    cases hw : step.writes s with
    | none =>
      rw [ha.noRegister hw] at hv
      simpa using h.registers hlog r v hv
    | some q =>
      obtain ⟨new, _, _, hset, hnew⟩ := ha.register q hw
      rw [hset] at hv
      rcases getElem?_declared hv with ⟨rfl, rfl⟩ | ⟨hne, hv⟩
      · simpa using hnew ⟨trivial, hreads⟩
      · simpa [hne] using h.registers hlog r v hv
  · simp only [List.mem_append, List.mem_singleton, or_and_right, exists_or, exists_eq_left]
    rw [ha.blocks] at hv
    by_cases hd : ∃ c, step.declares = some (.block c)
    · obtain ⟨c, hd⟩ := hd
      rw [hd, blocksAfter] at hv
      rcases getElem?_declared hv with ⟨rfl, rfl⟩ | ⟨hne, hv⟩
      · simp [hd]
      · simpa [hd, hne] using h.blocks b v hv
    · have hsame : blocksAfter st.blocks step.declares = st.blocks := by
        unfold blocksAfter
        split
        · exact absurd ⟨_, ‹_›⟩ hd
        · rfl
      rw [hsame] at hv
      simpa [not_exists.1 hd b] using h.blocks b v hv
  · simp only [List.mem_append, List.mem_singleton]
    rw [ha.functions] at hv
    by_cases hd : ∃ c, step = .declareFunction c
    · obtain ⟨c, rfl⟩ := hd
      rw [Step.declares, functionsAfter] at hv
      rcases getElem?_declared hv with ⟨rfl, rfl⟩ | ⟨hne, hv⟩
      · simp
      · simpa [Ne.symm hne] using h.functions g v hv
    · have hsame : functionsAfter st.functions step.declares = st.functions := by
        cases step with
        | declareFunction c => exact absurd ⟨c, rfl⟩ hd
        | _ => rfl
      rw [hsame] at hv
      simpa [eq_comm, not_exists.1 hd g] using h.functions g v hv

/-- The invariant holds along the whole walk. -/
theorem Tracks.walk {before : List Step} {log : List Event} {st st' : LlvmIrStorage} {u : Unit}
    (hst : (setup s (sized s)).result = some (u, st)) (h : Walk (emitStep s) before st log st') :
    Tracks s before log st' := by
  generalize hsteps : before = steps at h
  clear hsteps
  induction h with
  | nil st => exact tracks_start hst
  | snoc _ last ih => exact (ih hst).step last

/-- **A lookup, in its place.** The step that logs it comes after steps that ran to their end, and
finds what they left. -/
theorem lookup_cases {pre : List (Step × Event)} {step : Step} {e : Event}
    {post : List (Step × Event)} (h : walkTrace s = pre ++ (step, e) :: post)
    (hread : ∀ w, ¬ e.WriteOf w) :
    ∃ before after log st, emissionOrder s = before ++ step :: after ∧ Tracks s before log st ∧
      e.ReadOf st ∧ ∀ x ∈ log, x ∈ pre.map Prod.snd := by
  unfold walkTrace at h
  cases hset : (setup s (sized s)).result with
  | none => simp [hset] at h
  | some r =>
    obtain ⟨u, st₀⟩ := r
    rw [hset, Option.elim_some] at h
    obtain ⟨before, after, st, log, log₁, log₂, ho, hw, hl, hp⟩ := Walk.of_trace (.nil st₀) h
    refine ⟨before, after, log, st, ho, Tracks.walk hset (by simpa using hw), ?_, fun x hx => ?_⟩
    · obtain ⟨reads, writes, hs⟩ := emits_step (s := s) step st
      have he : e ∈ reads ++ writes := by
        rw [← hs.log, hl]
        exact List.mem_append_right _ (List.mem_cons_self ..)
      rcases List.mem_append.1 he with he | he
      · exact hs.isRead e he
      · exact absurd (hs.isWrite e he) (hread _)
    · rw [hp]
      exact List.mem_append_left _ hx

/-! ## Definitions and writes -/

/-- No block lies in two functions. -/
def BlocksUnshared (s : Storage) : Prop :=
  ∀ f < s.functions.length, ∀ g < s.functions.length, ∀ b ∈ blocksOf s f, b ∈ blocksOf s g → f = g

instance (s : Storage) : Decidable (BlocksUnshared s) := by
  unfold BlocksUnshared
  infer_instance

/-- The emitter makes a value at the site: a phi node, or the result of an instruction whose kind
has one. -/
def YieldsValue (s : Storage) : Site → Prop
  | .param .. => True
  | .instr _ i => ∃ instr, s.instrs[i]? = some instr ∧ writesDst instr.op = true

/-- A step that writes an entry does it for a definition site in one of its function's blocks. -/
theorem site_of_writes {step : Step} {r : RegisterIdx} (hm : step ∈ emissionOrder s)
    (hw : step.writes s = some r) : ∃ d, step = .ofSite step.func d ∧ d ∈ s.sites ∧
      s.definition d = some r ∧ YieldsValue s d ∧ d.block ∈ blocksOf s step.func := by
  obtain ⟨_, hm⟩ := mem_emissionOrder.1 hm
  generalize step.func = f at hm ⊢
  rcases mem_functionSteps.1 hm with rfl | ⟨b, _, rfl⟩ | ⟨b, hb, h⟩ | ⟨b, hb, h⟩
  · exact nomatch hw
  · exact nomatch hw
  · rcases mem_phiSteps.1 h with rfl | ⟨p, hp, rfl⟩
    · exact nomatch hw
    · obtain ⟨block, hblock, hp⟩ := mem_positions.1 hp
      exact ⟨.param b p, rfl, Storage.mem_sites_param hblock hp, hw, trivial, hb⟩
  · rcases mem_bodySteps.1 h with rfl | ⟨i, hi, rfl⟩
    · exact nomatch hw
    · obtain ⟨block, hblock, hi⟩ := mem_positions.1 hi
      obtain ⟨instr, hinstr, hdst⟩ := Option.bind_eq_some_iff.1 hw
      by_cases hop : writesDst instr.op = true
      · rw [if_pos hop] at hdst
        exact ⟨.instr b i, rfl, Storage.mem_sites_instr hblock hi,
          Option.bind_eq_some_iff.2 ⟨instr, hinstr, hdst⟩, ⟨instr, hinstr, hop⟩, hb⟩
      · rw [if_neg hop] at hdst
        exact nomatch hdst

theorem writes_ofSite {f r : Nat} {d : Site} (hd : s.definition d = some r)
    (hy : YieldsValue s d) : (Step.ofSite f d).writes s = some r := by
  cases d with
  | param b p => exact hd
  | instr b i =>
    obtain ⟨instr, hinstr, hop⟩ := hy
    simpa [Step.ofSite, Step.writes, Storage.definition, hinstr, hop] using hd

/-- The place of a step among those of its function. -/
def Step.rank : Step → Nat
  | .declareFunction _ => 0
  | .declareBlock .. => 1
  | .enterPhis .. | .phi .. => 2
  | .enterBody .. | .instr .. => 3

/-- Functions in their order, and in each the passes in theirs. -/
def Step.Before (a b : Step) : Prop := a.func < b.func ∨ a.func = b.func ∧ a.rank ≤ b.rank

theorem pairwise_emissionOrder (s : Storage) : (emissionOrder s).Pairwise Step.Before := by
  refine List.pairwise_flatMap.2 ⟨fun f _ => ?_, List.pairwise_lt_range.imp
    fun hlt a ha b hb => .inl (by rwa [func_of_mem ha, func_of_mem hb])⟩
  have hrank : (functionSteps s f).Pairwise fun a b => a.rank ≤ b.rank := by
    have hdecl : ∀ x ∈ (blocksOf s f).map (Step.declareBlock f), x.rank = 1 := by
      simp [Step.rank]
    have hphi : ∀ x ∈ (blocksOf s f).flatMap (phiSteps s f), x.rank = 2 := by
      intro x hx
      obtain ⟨b, _, hx⟩ := List.mem_flatMap.1 hx
      rcases mem_phiSteps.1 hx with rfl | ⟨p, _, rfl⟩ <;> rfl
    have hbody : ∀ x ∈ (blocksOf s f).flatMap (bodySteps s f), x.rank = 3 := by
      intro x hx
      obtain ⟨b, _, hx⟩ := List.mem_flatMap.1 hx
      rcases mem_bodySteps.1 hx with rfl | ⟨p, _, rfl⟩ <;> rfl
    have hsame {l : List Step} {n : Nat} (h : ∀ x ∈ l, x.rank = n) :
        l.Pairwise fun a b => a.rank ≤ b.rank :=
      List.pairwise_of_forall_mem_list fun a ha b hb =>
        Nat.le_of_eq ((h a ha).trans (h b hb).symm)
    refine List.pairwise_cons.2 ⟨fun _ _ => Nat.zero_le _, List.pairwise_append.2
      ⟨List.pairwise_append.2 ⟨hsame hdecl, hsame hphi, ?_⟩, hsame hbody, ?_⟩⟩
    · intro a ha b hb
      rw [hdecl a ha, hphi b hb]
      decide
    · intro a ha b hb
      rw [hbody b hb]
      rcases List.mem_append.1 ha with ha | ha
      · rw [hdecl a ha]
        decide
      · rw [hphi a ha]
        decide
  refine hrank.imp_of_mem fun ha hb h => .inr ⟨?_, h⟩
  rw [func_of_mem ha, func_of_mem hb]

/-- A declaration comes before the instructions of its function and of the later ones. -/
theorem declared_iff {before after : List Step} {f b i : Nat} {decl : Step}
    (ho : emissionOrder s = before ++ .instr f b i :: after) (hrank : decl.rank < 3) :
    decl ∈ before ↔ decl ∈ emissionOrder s ∧ decl.func ≤ f := by
  have hp := pairwise_emissionOrder s
  rw [ho] at hp ⊢
  obtain ⟨_, hafter, hbefore⟩ := List.pairwise_append.1 hp
  constructor
  · intro h
    refine ⟨List.mem_append_left _ h, ?_⟩
    rcases hbefore decl h _ (List.mem_cons_self ..) with h | h
    exacts [Nat.le_of_lt h, Nat.le_of_eq h.1]
  · rintro ⟨hm, hle⟩
    rcases List.mem_append.1 hm with h | h
    · exact h
    rcases List.mem_cons.1 h with rfl | h
    · exact absurd hrank (Nat.lt_irrefl 3)
    · rcases (List.pairwise_cons.1 hafter).1 decl h with h | ⟨_, h⟩
      · exact absurd h (Nat.not_lt.2 hle)
      · exact absurd hrank (Nat.not_lt.2 h)

/-! ## How often an entry is written -/

/-- The event writes the entry of `r`. -/
def Event.writesRegister (r : RegisterIdx) : Event → Bool
  | .addRegister q _ => q == r
  | _ => false

/-- The number of writes of the entry of `r`. -/
def writeCount (r : RegisterIdx) (log : List (Step × Event)) : Nat :=
  log.countP fun x => x.2.writesRegister r

theorem countP_writes {r : RegisterIdx} {w : Option RegisterIdx} {writes : List Event}
    (hw : ∀ e ∈ writes, e.WriteOf w) (hlen : writes.length ≤ 1) :
    writes.countP (Event.writesRegister r) ≤ if w = some r then 1 else 0 := by
  split
  · exact Nat.le_trans List.countP_le_length hlen
  · refine Nat.le_of_eq (List.countP_eq_zero.2 fun e he => ?_)
    have := hw e he
    cases e <;> simp_all [Event.writesRegister, Event.WriteOf]

theorem countP_reads {r : RegisterIdx} {st : LlvmIrStorage} {reads : List Event}
    (h : ∀ e ∈ reads, e.ReadOf st) : reads.countP (Event.writesRegister r) = 0 := by
  refine List.countP_eq_zero.2 fun e he => ?_
  have := h e he
  cases e <;> simp_all [Event.writesRegister, Event.ReadOf]

/-- One step writes an entry at most once, and once if it is its entry and the step finishes. -/
theorem countP_step (r : RegisterIdx) (step : Step) (st : LlvmIrStorage) :
    (emitStep s step st).log.countP (Event.writesRegister r) ≤
        (if step.writes s = some r then 1 else 0) ∧
      ((emitStep s step st).result.isSome = true →
        (emitStep s step st).log.countP (Event.writesRegister r) =
          if step.writes s = some r then 1 else 0) := by
  obtain ⟨reads, writes, hs⟩ := emits_step step st
  have hle := countP_writes (r := r) hs.isWrite hs.once
  rw [hs.log, List.countP_append, countP_reads hs.isRead, Nat.zero_add]
  refine ⟨hle, fun hr => ?_⟩
  obtain ⟨⟨u, st'⟩, hr⟩ := Option.isSome_iff_exists.1 hr
  split
  · next hw =>
    obtain ⟨v, rfl, _⟩ := (hs.after u st' hr).register r hw
    simp [Event.writesRegister]
  · next hw =>
    rw [if_neg hw] at hle
    exact Nat.le_zero.1 hle

theorem countP_tag (r : RegisterIdx) (step : Step) (log : List Event) :
    writeCount r (log.map (step, ·)) = log.countP (Event.writesRegister r) := by
  rw [writeCount, List.countP_map]
  rfl

/-- Along a run, an entry is written by the steps whose entry it is. -/
theorem writeCount_trace (r : RegisterIdx) (steps : List Step) (st : LlvmIrStorage) :
    writeCount r (trace (emitStep s) steps st) ≤ steps.countP (fun d => d.writes s = some r) ∧
      ((steps.forM (emitStep s) st).result.isSome = true →
        writeCount r (trace (emitStep s) steps st) =
          steps.countP fun d => d.writes s = some r) := by
  induction steps generalizing st with
  | nil => exact ⟨Nat.le_refl _, fun _ => rfl⟩
  | cons step steps ih =>
    obtain ⟨hle, heq⟩ := countP_step (s := s) r step st
    rw [trace, writeCount, List.countP_append, ← writeCount, countP_tag, List.countP_cons,
      show (step :: steps).forM (emitStep s) =
        (emitStep s step >>= fun _ => steps.forM (emitStep s)) from rfl]
    simp only [decide_eq_true_eq]
    rcases bind_cases (m := emitStep s step) (k := fun _ => steps.forM (emitStep s)) st with
      ⟨hr, h⟩ | ⟨u, st', hr, h⟩
    · rw [h, hr]
      refine ⟨?_, fun hres => by cases hres⟩
      have : List.countP (fun x : Step × Event => x.2.writesRegister r) [] = 0 := rfl
      rw [Option.elim_none, this]
      omega
    · obtain ⟨ihle, iheq⟩ := ih st'
      rw [h, hr, Option.elim_some, ← writeCount]
      dsimp only
      refine ⟨by omega, fun hres => ?_⟩
      rw [heq (by rw [hr]; rfl), iheq hres, Nat.add_comm]

/-- The two steps that write one entry of an accepted storage are the same one. -/
theorem writes_unique (hv : verifyStorage s = .ok ()) (hu : BlocksUnshared s) {a b : Step}
    {r : RegisterIdx} (ha : a ∈ emissionOrder s) (hb : b ∈ emissionOrder s)
    (hwa : a.writes s = some r) (hwb : b.writes s = some r) : a = b := by
  obtain ⟨d, had, hd, hdr, _, hdb⟩ := site_of_writes ha hwa
  obtain ⟨e, hbe, he, her, _, heb⟩ := site_of_writes hb hwb
  obtain rfl := (soleDefinition_of_accepted hv hd hdr e).1 ⟨he, her⟩
  have hf := hu _ (mem_emissionOrder.1 ha).1 _ (mem_emissionOrder.1 hb).1 _ hdb heb
  rw [had, hbe, hf]

theorem countP_le_one {α : Type} {p : α → Bool} : ∀ {l : List α}, l.Nodup →
    (∀ a ∈ l, ∀ b ∈ l, p a = true → p b = true → a = b) → l.countP p ≤ 1
  | [], _, _ => Nat.zero_le 1
  | a :: l, hn, h => by
    obtain ⟨ha, hn⟩ := List.nodup_cons.1 hn
    have ih := countP_le_one hn fun x hx y hy => h x (.tail _ hx) y (.tail _ hy)
    rw [List.countP_cons]
    split
    · next hpa =>
      have : l.countP p = 0 := List.countP_eq_zero.2 fun x hx hpx =>
        ha (h a (List.mem_cons_self ..) x (.tail _ hx) hpa hpx ▸ hx)
      omega
    · omega

/-- The set-up stops the emission with it. -/
theorem setup_of_emit (h : (emit s (sized s)).result.isSome = true) :
    ∃ u st, (setup s (sized s)).result = some (u, st) ∧
      ((emissionOrder s).forM (emitStep s) st).result.isSome = true := by
  rw [emit_eq_walk] at h
  rcases bind_cases (m := setup s) (k := fun _ => (emissionOrder s).forM (emitStep s)) (sized s)
    with ⟨hr, hb⟩ | ⟨u, st, hr, hb⟩
  · rw [hb] at h
    exact nomatch h
  · rw [hb] at h
    exact ⟨u, st, hr, h⟩

/-! ## The maps of an accepted storage -/

theorem writeCount_le_one (hv : verifyStorage s = .ok ()) (hu : BlocksUnshared s)
    (r : RegisterIdx) : writeCount r (walkTrace s) ≤ 1 := by
  unfold walkTrace
  cases (setup s (sized s)).result with
  | none => exact Nat.zero_le 1
  | some x =>
    refine Nat.le_trans (writeCount_trace r _ x.2).1 (countP_le_one (nodup_emissionOrder s)
      fun a ha b hb hwa hwb => ?_)
    exact writes_unique hv hu ha hb (by simpa using hwa) (by simpa using hwb)

theorem writeCount_eq_one (hv : verifyStorage s = .ok ()) (hu : BlocksUnshared s)
    (hdone : (emit s (sized s)).result.isSome = true) {d : Step} {r : RegisterIdx}
    (hd : d ∈ emissionOrder s) (hw : d.writes s = some r) : writeCount r (walkTrace s) = 1 := by
  have hle := writeCount_le_one hv hu r
  obtain ⟨u, st, hset, hrun⟩ := setup_of_emit hdone
  unfold walkTrace at hle ⊢
  rw [hset, Option.elim_some] at hle ⊢
  rw [(writeCount_trace r _ st).2 hrun] at hle ⊢
  have : 0 < (emissionOrder s).countP fun d => d.writes s = some r :=
    List.countP_pos_iff.2 ⟨d, hd, by simpa using hw⟩
  omega

/-- A register is found when the walk has passed its one definition. -/
theorem registerValue_iff (hv : verifyStorage s = .ok ()) {pre : List (Step × Event)}
    {step : Step} {r : RegisterIdx} {v : Pointer} {post : List (Step × Event)}
    (h : walkTrace s = pre ++ (step, .registerValue r v) :: post)
    (hclean : ∀ x ∈ pre, x.2.Clean) :
    v.isSome = true ↔ ∃ d f, s.SoleDefinition r d ∧ YieldsValue s d ∧
      Earlier s (.ofSite f d) step := by
  obtain ⟨before, after, log, st, ho, ht, hread, hlog⟩ := lookup_cases h nofun
  rw [ht.registers (fun e he => ?_) r v hread]
  · constructor
    · rintro ⟨d, hd, hw⟩
      obtain ⟨site, hsite, hmem, hdef, hy, _⟩ :=
        site_of_writes (ho ▸ List.mem_append_left _ hd) hw
      exact ⟨site, d.func, soleDefinition_of_accepted hv hmem hdef, hy,
        (earlier_iff ho).2 (hsite ▸ hd)⟩
    · rintro ⟨d, f, hd, hy, he⟩
      exact ⟨_, (earlier_iff ho).1 he, writes_ofSite ((hd d).2 rfl).2 hy⟩
  · obtain ⟨x, hx, rfl⟩ := List.mem_map.1 (hlog e he)
    exact hclean x hx

/-- A block is found when its function has been entered. -/
theorem blockValue_iff {pre : List (Step × Event)} {f b i c : Nat} {v : Pointer}
    {post : List (Step × Event)}
    (h : walkTrace s = pre ++ (.instr f b i, .blockValue c v) :: post) :
    v.isSome = true ↔ ∃ g ≤ f, c ∈ blocksOf s g := by
  obtain ⟨before, after, log, st, ho, ht, hread, _⟩ := lookup_cases h nofun
  rw [ht.blocks c v hread]
  have hm : Step.instr f b i ∈ emissionOrder s :=
    ho ▸ List.mem_append_right _ (List.mem_cons_self ..)
  have hf : f < s.functions.length := (mem_emissionOrder.1 hm).1
  constructor
  · rintro ⟨d, hd, hdecl⟩
    cases d with
    | declareBlock g c' =>
      cases hdecl
      obtain ⟨hm, hle⟩ := (declared_iff ho (by simp [Step.rank])).1 hd
      rcases mem_functionSteps.1 (mem_emissionOrder.1 hm).2 with h | ⟨b', hb', h⟩ | ⟨b', _, h⟩ |
        ⟨b', _, h⟩
      · exact nomatch h
      · cases h
        exact ⟨g, hle, hb'⟩
      · simp [mem_phiSteps] at h
      · simp [mem_bodySteps] at h
    | _ => exact nomatch hdecl
  · rintro ⟨g, hle, hc⟩
    have hm : Step.declareBlock g c ∈ emissionOrder s := mem_emissionOrder.2
      ⟨Nat.lt_of_le_of_lt hle hf, mem_functionSteps.2 (.inr (.inl ⟨c, hc, rfl⟩))⟩
    exact ⟨_, (declared_iff ho (by simp [Step.rank])).2 ⟨hm, hle⟩, rfl⟩

/-- **The verifier and the maps.** In a storage that is accepted and lists no block twice, an entry
of a register is written at most once, and exactly once when the emission finishes and the walk
meets a definition that yields a value. Up to the first lookup that returns null, a register is
found exactly when its one definition yields a value and the walk has passed it, and a block of an
operand exactly when it belongs to the function at hand or to an earlier one. -/
theorem verified_maps (hv : verifyStorage s = .ok ()) (hu : BlocksUnshared s) :
    (∀ r, writeCount r (walkTrace s) ≤ 1) ∧
    ((emit s (sized s)).result.isSome = true → ∀ d f r, s.SoleDefinition r d → YieldsValue s d →
      Step.ofSite f d ∈ emissionOrder s → writeCount r (walkTrace s) = 1) ∧
    (∀ pre step r v post, walkTrace s = pre ++ (step, .registerValue r v) :: post →
      (∀ x ∈ pre, x.2.Clean) → (v.isSome = true ↔
        ∃ d f, s.SoleDefinition r d ∧ YieldsValue s d ∧ Earlier s (.ofSite f d) step)) ∧
    ∀ pre f b i c v post, walkTrace s = pre ++ (.instr f b i, .blockValue c v) :: post →
      (v.isSome = true ↔ ∃ g ≤ f, c ∈ blocksOf s g) :=
  ⟨writeCount_le_one hv hu,
    fun hdone d _ _ hd hy hm => writeCount_eq_one hv hu hdone hm (writes_ofSite ((hd d).2 rfl).2 hy),
    fun _ _ _ _ _ h hclean => registerValue_iff hv h hclean,
    fun _ _ _ _ _ _ _ h => blockValue_iff h⟩

/-- One function of two blocks: `body` is what the first block does before it branches to the
second, which returns register 0. -/
def twoBlocks (body : Instruction) (ops : List Operand) : Storage where
  functions := [⟨⟨0, ⟨0, 0⟩, 0⟩, ⟨0, 2⟩⟩]
  blocks := [⟨⟨0, 2⟩, ⟨0, 0⟩⟩, ⟨⟨2, 2⟩, ⟨0, 0⟩⟩]
  blockParams := []
  instrs := [body, ⟨.br, .add, none, ⟨0, 1⟩⟩, ⟨.not, .add, some 1, ⟨1, 1⟩⟩,
    ⟨.ret, .add, none, ⟨2, 1⟩⟩]
  immutables := [⟨4, 7⟩]
  registers := [⟨4⟩, ⟨4⟩]
  externalFunctions := []
  operands := [⟨.block 1, 0⟩, ⟨.immutable 0, 4⟩, ⟨.register 0, 4⟩] ++ ops
  types := [⟨.void, 0⟩, ⟨.i1, 0⟩, ⟨.i8, 0⟩, ⟨.i16, 0⟩, ⟨.i32, 0⟩]
  structTypes := []
  arrayTypes := []
  enumTypes := []
  enumVariantTypes := []
  refTypes := []
  tupleTypes := []

/-- The first block defines its register from the immediate. -/
def definedFirst : Storage := twoBlocks ⟨.not, .add, some 0, ⟨1, 1⟩⟩ []

theorem definedFirst_maps : (∀ r, writeCount r (walkTrace definedFirst) ≤ 1) ∧
    ∃ g ≤ 0, 1 ∈ blocksOf definedFirst g :=
  have h := verified_maps (s := definedFirst) (by decide) (by decide)
  ⟨h.1, (h.2.2.2 ((walkTrace definedFirst).take 9) 0 0 1 1 (some (.block 1))
    ((walkTrace definedFirst).drop 10) rfl).1 rfl⟩

/-- The first block defines its register from the one that the second block defines. -/
def usedBeforeDefined : Storage :=
  twoBlocks ⟨.not, .add, some 0, ⟨3, 1⟩⟩ [⟨.register 1, 4⟩]

/-- The storage is accepted, and the emitter finds null for a register it has not written yet. -/
theorem usedBeforeDefined_null : verifyStorage usedBeforeDefined = .ok () ∧
    BlocksUnshared usedBeforeDefined ∧
    (.instr 0 0 0, .registerValue 1 none) ∈ walkTrace usedBeforeDefined :=
  ⟨by decide, by decide, List.mem_of_getElem? (i := 6) rfl⟩

end Alcy.Codegen
