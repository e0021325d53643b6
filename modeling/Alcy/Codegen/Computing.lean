import Alcy.Codegen.Arithmetic
import Alcy.Codegen.Constants

/-! # What the selected instructions compute

The LLVM instruction that the emitter selects computes, of operands that agree, what the instruction
of the storage computes (`exec_of_compute`).
-/
namespace Alcy.Codegen

open Alcy.Ir Alcy.Lib.Llvm

variable {s : Storage} {F P ω : Type} {l : Llvm F P ω} {fr : Frame F P ω}
  {i : Instruction} {env : Value → Option (Val F P)} {st : LlvmIrStorage}

/-- The value in the module has what the operand has, where that has a value. -/
def Agrees (s : Storage) (l : Llvm F P ω) (fr : Frame F P ω) (i : Instruction)
    (env : Value → Option (Val F P)) (k : Nat) (v : Value) : Prop :=
  ∀ a, arg s (platform s l) fr i k = some a → env v = some a

theorem mapM_of_agrees {ks : List Nat} {vs : List Value} {as : List (Val F P)}
    (h : List.Forall₂ (Agrees s l fr i env) ks vs)
    (has : ks.mapM (arg s (platform s l) fr i) = some as) : vs.mapM env = some as := by
  induction h generalizing as with
  | nil => exact has
  | cons hv _ ih =>
    rw [List.mapM_cons] at has ⊢
    obtain ⟨a, ha, has⟩ := Option.bind_eq_some_iff.1 has
    obtain ⟨as, has, heq⟩ := Option.bind_eq_some_iff.1 has
    rw [hv a ha, ih has]
    exact heq

/-! ## Comparisons and casts -/

variable [DecidableEq P]

theorem exec_of_comparison (hl : l.Documented) {op : Opcode} {tag : TypeTag} {a b c : Val F P}
    (hop : op ∈ [Opcode.eq, .ne, .lt, .le, .gt, .ge])
    (h : comparison l.floats op tag a b = some c) (w : ω) :
    ∃ o, comparisonOp op tag = some o ∧ l.exec o [a, b] w = some (some c, w) := by
  unfold comparison at h
  split at h
  · next n x m y =>
    split at h
    · next hint =>
      obtain ⟨rfl, hint⟩ := hint
      cases h
      have hp : ∃ p, intPredicate op (isSignedIntegerType tag) = some p := by
        simp only [List.mem_cons, List.not_mem_nil, or_false] at hop
        rcases hop with rfl | rfl | rfl | rfl | rfl | rfl <;> exact ⟨_, rfl⟩
      obtain ⟨p, hp⟩ := hp
      refine ⟨.icmp p, by rw [comparisonOp, if_pos hint, hp]; rfl, ?_⟩
      rw [hl.exec.icmp, eval_of_compares hp]
      rfl
    · cases h
  · next x y =>
    split at h
    · next hfloat =>
      cases h
      have hint : ¬ isIntegerType tag = true := by
        cases tag <;> simp_all [isIntegerType, isFloatType]
      have hp : ∃ p, floatPredicate op = some p ∧
          ∀ o : Option Ordering, p.eval o = o.any (compares op) := by
        simp only [List.mem_cons, List.not_mem_nil, or_false] at hop
        rcases hop with rfl | rfl | rfl | rfl | rfl | rfl <;>
          exact ⟨_, rfl, fun o => by cases o <;> rfl⟩
      obtain ⟨p, hp, heval⟩ := hp
      refine ⟨.fcmp p, by rw [comparisonOp, if_neg hint, if_pos hfloat, hp]; rfl, ?_⟩
      rw [hl.exec.fcmp, heval]
      rfl
    · cases h
  · next p q =>
    split at h
    · next heq =>
      obtain ⟨rfl, rfl⟩ := heq
      cases h
      exact ⟨.icmp .eq, rfl, hl.exec.icmpEqPtr p q w⟩
    · split at h
      · next hne =>
        obtain ⟨rfl, rfl⟩ := hne
        cases h
        exact ⟨.icmp .ne, rfl, hl.exec.icmpNePtr p q w⟩
      · cases h
  · cases h

theorem exec_of_cast (hl : l.Documented) {src dst : TypeTag} {type : LlvmType} {a : Val F P}
    {w : ω} {r : Option (Val F P) × ω} (hne : src ≠ dst)
    (htype : isIntegerType dst = true → type = .int (width dst))
    (h : cast l.floats l.exec src dst type a w = some r) :
    ∃ o, castOp src dst type = some o ∧ l.exec o [a] w = some r := by
  rw [Ir.cast.eq_def, if_neg hne] at h
  have hfloat {tag : TypeTag} (hf : isFloatType tag = true) :
      ¬ isIntegerType tag = true ∧ tag ≠ .ptr := by
    cases tag <;> simp_all [isIntegerType, isFloatType]
  have hptr : isIntegerType .ptr = false ∧ isFloatType .ptr = false := ⟨rfl, rfl⟩
  cases a with
  | int n x =>
    simp only at h
    split at h
    · next hc =>
      cases h
      refine ⟨_, if_pos hc, ?_⟩
      rw [htype hc.2, ofInt_number]
      by_cases hlt : width dst < n
      · rw [hl.exec.trunc _ _ _ _ _ hlt, BitVec.signExtend_eq_setWidth_of_le x hlt.le, ite_self]
      · cases hs : isSignedIntegerType src
        · exact hl.exec.zext n _ x w (Nat.not_lt.1 hlt)
        · exact hl.exec.sext n _ x w (Nat.not_lt.1 hlt)
    · next hc =>
      split at h
      · next hc' =>
        cases h
        exact ⟨_, by rw [castOp, if_neg hc, if_pos hc'], hl.exec.intToFloat type _ n x w⟩
      · next hc' =>
        split at h
        · next hp =>
          refine ⟨.intToPtr type, ?_, h⟩
          obtain ⟨hsrc, rfl⟩ := hp
          have hsf : ¬ isFloatType src = true := fun hf => (hfloat hf).1 hsrc
          simp [castOp, hsrc, hsf, hptr]
        · cases h
  | float x =>
    simp only at h
    split at h
    · next hc =>
      obtain ⟨k, hk, h⟩ := Option.bind_eq_some_iff.1 h
      split at h
      · next hfits =>
        cases h
        have hsrc := hfloat hc.1
        refine ⟨.floatToInt type (isSignedIntegerType dst), by simp [castOp, hsrc.1, hc], ?_⟩
        rw [htype hc.2]
        exact hl.exec.floatToInt _ _ x k w hk hfits
      · cases h
    · next hc =>
      split at h
      · next hc' =>
        cases h
        have hsrc := hfloat hc'.1
        have hdst := hfloat hc'.2
        exact ⟨.floatCast type, by simp [castOp, hsrc.1, hdst.1, hc'], hl.exec.floatCast type x w⟩
      · cases h
  | ptr p =>
    simp only at h
    split at h
    · next hc =>
      refine ⟨.ptrToInt type, ?_, h⟩
      obtain ⟨rfl, hdst⟩ := hc
      simp [castOp, hdst, hptr]
    · cases h
  | aggregate fields => cases h

/-! ## Selection -/

/-- The emitter's instruction, run on the values of the operands it takes, ends as `r` says. -/
def Computes (s : Storage) (l : Llvm F P ω) (fr : Frame F P ω) (i : Instruction)
    (st : LlvmIrStorage) (indices : List (BitVec 32)) (r : Option (Val F P) × ω) : Prop :=
  ∃ o as, selectOp s st i indices = some o ∧
    (builtPlaces i).mapM (arg s (platform s l) fr i) = some as ∧ l.exec o as fr.world = some r

variable {indices : List (BitVec 32)} {r : Option (Val F P) × ω}

theorem operand_eq {k : Nat} {o : Operand} (h : operand s i k = some o) :
    s.operands[i.operands.head + k]? = some o := by
  unfold operand at h
  split at h
  · exact h
  · cases h

omit [DecidableEq P] in
theorem computes_intro {o : Op LlvmType} {p : List Nat} {as : List (Val F P)}
    (ho : selectOp s st i indices = some o) (hp : builtPlaces i = p)
    (has : p.mapM (arg s (platform s l) fr i) = some as)
    (h : l.exec o as fr.world = some r) : Computes s l fr i st indices r :=
  ⟨o, as, ho, hp ▸ has, h⟩

/-- Arithmetic and logic on two integers. -/
theorem computes_binary (hl : l.Documented) {b : BinaryOp} (hb : binaryOp i.op = some b)
    (h : compute s (platform s l) fr i = some r) : Computes s l fr i st indices r := by
  have hsome : ∃ n x y z, arg s (platform s l) fr i 0 = some (.int n x) ∧
      arg s (platform s l) fr i 1 = some (.int n y) ∧ arithmetic i.op x y = some z ∧
      r = (some (.int n z), fr.world) := by
    cases hop : i.op <;> rw [hop] at hb <;> cases hb
    all_goals
      simp only [compute, hop, Option.bind_eq_bind, Option.bind_eq_some_iff] at h
      obtain ⟨a, ha, c, hc, h⟩ := h
      split at h
      · split at h
        · next heq =>
          subst heq
          obtain ⟨z, hz, h⟩ := Option.bind_eq_some_iff.1 h
          cases h
          exact ⟨_, _, _, z, ha, hc, hz, rfl⟩
        · cases h
      · cases h
  obtain ⟨n, x, y, z, hx, hy, hz, rfl⟩ := hsome
  have ho : selectOp s st i indices = some (.binary b) := by
    cases hop : i.op <;> rw [hop] at hb <;> cases hb <;> simp [selectOp, hop, binaryOp]
  have hp : builtPlaces i = [0, 1] := by
    cases hop : i.op <;> rw [hop] at hb <;> cases hb <;> simp [builtPlaces, hop]
  exact computes_intro ho hp (by simp [hx, hy])
    (hl.exec.binary b n x y z fr.world (eval_of_arithmetic hb hz))

theorem computes_compare (hl : l.Documented) (hop : i.op ∈ [Opcode.eq, .ne, .lt, .le, .gt, .ge])
    (h : compute s (platform s l) fr i = some r) : Computes s l fr i st indices r := by
  have hsome : ∃ o tag a b c, operand s i 0 = some o ∧ tagOf s o.type = some tag ∧
      arg s (platform s l) fr i 0 = some a ∧ arg s (platform s l) fr i 1 = some b ∧
      comparison l.floats i.op tag a b = some c ∧ r = (some c, fr.world) := by
    simp only [List.mem_cons, List.not_mem_nil, or_false] at hop
    rcases hop with hop | hop | hop | hop | hop | hop
    all_goals
      simp only [compute, hop, Option.bind_eq_bind, Option.bind_eq_some_iff] at h
      obtain ⟨o, ho, tag, htag, a, ha, b, hb, c, hc, h⟩ := h
      cases h
      exact ⟨o, tag, a, b, c, ho, htag, ha, hb, by rw [hop]; exact hc, rfl⟩
  obtain ⟨o, tag, a, b, c, ho, htag, ha, hb, hc, rfl⟩ := hsome
  obtain ⟨p, hp, hexec⟩ := exec_of_comparison hl hop hc fr.world
  have hselect : selectOp s st i indices = some p := by
    have hread : s.operands[i.operands.head]? = some o := operand_eq ho
    simp only [List.mem_cons, List.not_mem_nil, or_false] at hop
    rcases hop with hop | hop | hop | hop | hop | hop <;>
      simpa [selectOp, hop, hread, htag] using hop ▸ hp
  have hplaces : builtPlaces i = [0, 1] := by
    simp only [List.mem_cons, List.not_mem_nil, or_false] at hop
    rcases hop with hop | hop | hop | hop | hop | hop <;> simp [builtPlaces, hop]
  exact computes_intro hselect hplaces (by simp [ha, hb]) hexec

theorem computes_cast (hl : l.Documented) (hop : i.op = .typeCast) (hcast : ¬ SameTags s i)
    (h : compute s (platform s l) fr i = some r) : Computes s l fr i st indices r := by
  simp only [compute, hop, Option.bind_eq_bind, Option.bind_eq_some_iff] at h
  obtain ⟨o, ho, src, hsrc, dst, hdst, reg, hreg, tag, htag, type, htype, a, ha, h⟩ := h
  have hread : s.operands[i.operands.head]? = some o := operand_eq ho
  have hne : src ≠ tag := by
    rintro rfl
    exact hcast ⟨o, dst, reg, src, hread, hdst, hreg, hsrc, htag⟩
  have hint (hi : isIntegerType tag = true) : type = .int (width tag) :=
    layout_integer htag hi htype
  obtain ⟨p, hp, hexec⟩ := exec_of_cast hl hne hint h
  have hlayout : layout s reg.type = some type := htype
  have hselect : selectOp s st i indices = some p := by
    simp [selectOp, hop, hread, hsrc, hdst, hreg, htag, hlayout, hp]
  exact computes_intro hselect (by rw [builtPlaces, hop]) (by simp [ha]) hexec

/-- Instructions on bits, and the choice between two values. -/
theorem computes_plain (hl : l.Documented) (hop : i.op ∈ [Opcode.not, .bitReverse, .select])
    (h : compute s (platform s l) fr i = some r) : Computes s l fr i st indices r := by
  simp only [List.mem_cons, List.not_mem_nil, or_false] at hop
  rcases hop with hop | hop | hop <;>
    simp only [compute, hop, Option.bind_eq_bind, Option.bind_eq_some_iff] at h
  · obtain ⟨a, ha, h⟩ := h
    split at h
    · next n x =>
      cases h
      exact computes_intro (by rw [selectOp, hop]) (by rw [builtPlaces, hop]) (by simp [ha])
        (hl.exec.not n x fr.world)
    · cases h
  · obtain ⟨a, ha, h⟩ := h
    split at h
    · next n x =>
      cases h
      exact computes_intro (by rw [selectOp, hop]) (by rw [builtPlaces, hop]) (by simp [ha])
        (hl.exec.bitReverse n x fr.world)
    · cases h
  · obtain ⟨a, ha, b, hb, c, hc, h⟩ := h
    split at h
    · next x =>
      cases h
      exact computes_intro (by rw [selectOp, hop]) (by rw [builtPlaces, hop])
        (by simp [ha, hb, hc]) (hl.exec.select x b c fr.world)
    · cases h

/-- Instructions that touch memory are the platform's. -/
theorem computes_memory (hop : i.op ∈ [Opcode.alloca, .load, .atomicLoad, .store, .atomicStore,
    .atomicRmw, .atomicCompareExchange, .fence])
    (h : compute s (platform s l) fr i = some r) : Computes s l fr i st indices r := by
  have hlayout {type : LlvmType} (ht : resultType s (platform s l) i = some type) :
      dstLayout s i = some type := ht
  simp only [List.mem_cons, List.not_mem_nil, or_false] at hop
  rcases hop with hop | hop | hop | hop | hop | hop | hop | hop <;>
    simp only [compute, hop, Option.bind_eq_bind, Option.bind_eq_some_iff] at h
  · obtain ⟨type, ht, a, ha, h⟩ := h
    exact computes_intro (by simp [selectOp, hop, hlayout ht]) (by rw [builtPlaces, hop])
      (by simp [ha]) h
  · obtain ⟨type, ht, a, ha, h⟩ := h
    exact computes_intro (by simp [selectOp, hop, hlayout ht]) (by rw [builtPlaces, hop])
      (by simp [ha]) h
  · obtain ⟨type, ht, a, ha, h⟩ := h
    exact computes_intro (by simp [selectOp, hop, hlayout ht]) (by rw [builtPlaces, hop])
      (by simp [ha]) h
  · obtain ⟨a, ha, b, hb, h⟩ := h
    exact computes_intro (by rw [selectOp, hop]) (by simp [builtPlaces, hop])
      (p := [0, 1]) (by simp [ha, hb]) h
  · obtain ⟨a, ha, b, hb, h⟩ := h
    exact computes_intro (by rw [selectOp, hop]) (by simp [builtPlaces, hop])
      (p := [0, 1]) (by simp [ha, hb]) h
  · obtain ⟨a, ha, b, hb, h⟩ := h
    exact computes_intro (by rw [selectOp, hop]) (by simp [builtPlaces, hop])
      (p := [0, 1]) (by simp [ha, hb]) h
  · obtain ⟨a, ha, b, hb, c, hc, h⟩ := h
    exact computes_intro (by rw [selectOp, hop]) (by rw [builtPlaces, hop])
      (by simp [ha, hb, hc]) h
  · exact computes_intro (by rw [selectOp, hop]) (by rw [builtPlaces, hop]) rfl h

theorem computes_element (hop : i.op = .getElementPtr)
    (helement : ∀ o r, s.operands[i.operands.head]? = some o → o.data = .register r →
      isAllocated s r = true → ∃ reg ty, s.registers[r]? = some reg ∧ layout s reg.type = some ty ∧
        st.allocaTypes[r]? = some (some ty))
    (h : compute s (platform s l) fr i = some r) : Computes s l fr i st indices r := by
  simp only [compute, hop, Option.bind_eq_bind, Option.bind_eq_some_iff] at h
  obtain ⟨o, ho, base, hbase, type, htype, a, ha, as, has, h⟩ := h
  have hread : s.operands[i.operands.head]? = some o := operand_eq ho
  have hdata := data_of_asRegister hbase
  unfold elementType at htype
  split at htype
  · next halloc =>
    obtain ⟨reg, ty, hreg, hty, hmap⟩ := helement o base hread hdata halloc
    obtain ⟨reg', hreg', htype⟩ := Option.bind_eq_some_iff.1 htype
    cases hreg.symm.trans hreg'
    obtain rfl : type = ty := Option.some.inj (htype.symm.trans hty)
    have hselect : selectOp s st i indices = some (.getElementPtr type) := by
      simp [selectOp, hop, hread, hbase, hmap]
    exact computes_intro hselect (by rw [builtPlaces, hop]) (by simp [ha, has]) h
  · cases htype

/-! ### Aggregates -/

theorem indexAt_eq {k n : Nat} {x : BitVec 32} (hn : indexAt s i k = some n)
    (hx : indexBits s i k x) : n = x.toNat := by
  obtain ⟨o, imm, idx, tag, value, ho, hidx, himm, htag, hvalue, rfl⟩ := hx
  simp only [indexAt, Option.bind_eq_bind, Option.bind_eq_some_iff] at hn
  obtain ⟨o', ho', idx', hidx', imm', himm', tag', htag', value', hvalue', hn⟩ := hn
  cases ho.symm.trans (operand_eq ho')
  cases hidx.symm.trans hidx'
  cases himm.symm.trans himm'
  cases htag.symm.trans htag'
  cases hvalue.symm.trans hvalue'
  split at hn
  · next hlt =>
    cases hn
    rw [BitVec.toNat_setWidth, Nat.mod_eq_of_lt hlt]
  · cases hn

/-- The path of an aggregate instruction. -/
theorem path_eq {ks : List Nat} {path : List Nat} (h : List.Forall₂ (indexBits s i) ks indices)
    (hpath : ks.mapM (indexAt s i) = some path) : indices.map BitVec.toNat = path := by
  induction h generalizing path with
  | nil => cases hpath; rfl
  | cons hx _ ih =>
    rw [List.mapM_cons] at hpath
    obtain ⟨n, hn, hpath⟩ := Option.bind_eq_some_iff.1 hpath
    obtain ⟨ns, hns, hpath⟩ := Option.bind_eq_some_iff.1 hpath
    cases hpath
    rw [List.map_cons, ih hns, indexAt_eq hn hx]

theorem computes_aggregate (hl : l.Documented) (hop : i.op ∈ [Opcode.extractValue, .insertValue])
    (hindices : List.Forall₂ (indexBits s i) (indexPlaces i) indices)
    (h : compute s (platform s l) fr i = some r) : Computes s l fr i st indices r := by
  simp only [List.mem_cons, List.not_mem_nil, or_false] at hop
  rcases hop with hop | hop <;>
    simp only [compute, hop, Option.bind_eq_bind, Option.bind_eq_some_iff] at h <;>
    rw [indexPlaces, hop] at hindices
  · obtain ⟨path, hpath, a, ha, part, hpart, h⟩ := h
    cases h
    exact computes_intro (by simp [selectOp, hop, path_eq hindices hpath])
      (by rw [builtPlaces, hop]) (by simp [ha]) (hl.exec.extractValue path a part fr.world hpart)
  · obtain ⟨path, hpath, part, hp, a, ha, v, hv, h⟩ := h
    cases h
    exact computes_intro (by simp [selectOp, hop, path_eq hindices hpath])
      (by simp [builtPlaces, hop]) (p := [0, 1]) (by simp [ha, hp])
      (hl.exec.insertValue path a part v fr.world hv)

/-- **What an instruction computes** its LLVM instruction computes too. -/
theorem computes_of_compute (hl : l.Documented) (hop : i.op ∉ [.noop, .drop, .move, .br])
    (hcast : i.op = .typeCast → ¬ SameTags s i)
    (hindices : List.Forall₂ (indexBits s i) (indexPlaces i) indices)
    (helement : i.op = .getElementPtr → ∀ o r, s.operands[i.operands.head]? = some o →
      o.data = .register r → isAllocated s r = true → ∃ reg ty, s.registers[r]? = some reg ∧
        layout s reg.type = some ty ∧ st.allocaTypes[r]? = some (some ty))
    (h : compute s (platform s l) fr i = some r) : Computes s l fr i st indices r := by
  have hnone (hc : compute s (platform s l) fr i = none) : Computes s l fr i st indices r :=
    absurd (hc.symm.trans h) nofun
  cases hi : i.op
  case noop | drop | move | br => exact absurd hi (by rintro he; simp [he] at hop)
  case condBr | switch | call | ret | unreachable => exact hnone (by rw [compute, hi])
  case typeCast => exact computes_cast hl hi (hcast hi) h
  case getElementPtr => exact computes_element hi (helement hi) h
  case extractValue | insertValue => exact computes_aggregate hl (by simp [hi]) hindices h
  case not | bitReverse | select => exact computes_plain hl (by simp [hi]) h
  case eq | ne | lt | le | gt | ge => exact computes_compare hl (by simp [hi]) h
  case alloca | load | atomicLoad | store | atomicStore | atomicRmw | atomicCompareExchange | fence =>
    exact computes_memory (by simp [hi]) h
  all_goals exact computes_binary hl (by rw [hi]; rfl) h

end Alcy.Codegen
