import Alcy.Analyzer.PatternSteps
import Alcy.Analyzer.Reports

/-! # Struct literals

`check_struct_expr` marks the fields that have a value and reports those that have none at the end. A
field that is named twice is marked twice, and nothing is reported.
-/
namespace Alcy.Analyzer.Bodies
open Alcy.Ast Alcy.Diag Alcy.Ir Alcy.Analyzer.Types
open Alcy.Lib.Contracts (Ends Keeps bind_ok bind_of_ok)

variable {p : Package}

/-! ## Names and places -/

/-- The names of the fields. -/
def declaredNames (decl : StructItem) : List String := decl.fields.map (·.name.name)

/-- The names of the initialisers. -/
def namesOf (init : List (Ident × Operand)) : List String := init.map (·.1.name)

theorem fieldIndex_some {decl : StructItem} {name : String} {i : Nat}
    (h : fieldIndex decl name = some i) :
    ∃ field, decl.fields[i]? = some field ∧ field.name.name = name := by
  obtain ⟨hlt, hname, -⟩ := List.findIdx?_eq_some_iff_getElem.1 h
  exact ⟨decl.fields[i], List.getElem?_eq_getElem hlt, of_decide_eq_true hname⟩

section

variable {decl : StructItem} {names : List String}

/-- Every field has its own place among those of the names. -/
def AllNamed (decl : StructItem) (names : List String) : Prop :=
  ∀ i < decl.fields.length, ∃ name ∈ names, fieldIndex decl name = some i

/-- A field is found by its own name. -/
theorem AllNamed.fieldIndex (h : AllNamed decl names) {i : Nat} {field : StructField}
    (hi : decl.fields[i]? = some field) :
    Bodies.fieldIndex decl field.name.name = some i ∧ field.name.name ∈ names := by
  obtain ⟨hlt, -⟩ := List.getElem?_eq_some_iff.1 hi
  obtain ⟨name, hmem, hindex⟩ := h i hlt
  obtain ⟨other, hother, rfl⟩ := fieldIndex_some hindex
  cases hi.symm.trans hother
  exact ⟨hindex, hmem⟩

theorem AllNamed.nodup (h : AllNamed decl names) : (declaredNames decl).Nodup := by
  refine List.nodup_iff_getElem?_ne_getElem?.2 fun i j hij hj heq => ?_
  have hj' : j < decl.fields.length := by
    rwa [declaredNames, List.length_map] at hj
  have hfieldJ : decl.fields[j]? = some decl.fields[j] := List.getElem?_eq_getElem hj'
  have hfieldI : decl.fields[i]? = some decl.fields[i] :=
    List.getElem?_eq_getElem (Nat.lt_trans hij hj')
  rw [declaredNames, List.getElem?_map, List.getElem?_map, hfieldI, hfieldJ, Option.map_some,
    Option.map_some, Option.some.injEq] at heq
  have hi := (h.fieldIndex hfieldI).1
  rw [heq, (h.fieldIndex hfieldJ).1, Option.some.injEq] at hi
  omega

/-- Names that cover all fields and nothing else are the fields' names, up to the order, when none
comes twice. -/
theorem perm_declaredNames_iff (h : AllNamed decl names)
    (hknown : ∀ name ∈ names, (fieldIndex decl name).isSome = true) :
    names.Perm (declaredNames decl) ↔ names.Nodup := by
  refine ⟨fun hperm => hperm.nodup_iff.2 h.nodup, fun hnodup => ?_⟩
  refine (List.perm_ext_iff_of_nodup hnodup h.nodup).2 fun name => ⟨fun hmem => ?_, fun hmem => ?_⟩
  · obtain ⟨i, hi⟩ := Option.isSome_iff_exists.1 (hknown name hmem)
    obtain ⟨field, hfield, rfl⟩ := fieldIndex_some hi
    exact List.mem_map_of_mem (List.mem_of_getElem? hfield)
  · obtain ⟨field, hfield, rfl⟩ := List.mem_map.1 hmem
    obtain ⟨i, hi⟩ := List.mem_iff_getElem?.1 hfield
    exact (h.fieldIndex hi).2

end

/-! ## The values -/

/-- One value after the other is compared with the slot of the field that it names. -/
inductive InitsChecked (decl : StructItem) (fields : IdxRange) :
    List (Ident × Operand) → BodyState → BodyState → Prop where
  | nil {st : BodyState} : InitsChecked decl fields [] st st
  | cons {name : Ident} {value : Operand} {rest : List (Ident × Operand)} {i : Nat} {type : TypeIdx}
      {st u v : BodyState} : fieldIndex decl name.name = some i → fields.toList[i]? = some type →
      checkAgainst type "field" value st = .ok ((), u) → InitsChecked decl fields rest u v →
      InitsChecked decl fields ((name, value) :: rest) st v

/-- What a run over the initialisers without a diagnostic has found. -/
structure Marked (decl : StructItem) (fields : IdxRange) (init : List (Ident × Operand))
    (seen seen' : List Bool) (st st' : BodyState) : Prop where
  checked : InitsChecked decl fields init st st'
  known : ∀ name ∈ namesOf init, (fieldIndex decl name).isSome = true
  length : seen'.length = seen.length
  marks : ∀ i : Nat, seen'[i]? = some true →
    seen[i]? = some true ∨ ∃ name ∈ namesOf init, fieldIndex decl name = some i

theorem checkInits_silently (decl : StructItem) (fields : IdxRange) :
    ∀ (init : List (Ident × Operand)) (seen : List Bool) (st : BodyState),
      (∀ field ∈ init, field.2.Good fun _ => Keeps forward) →
      Silently st (checkInits decl fields init seen) fun seen' u =>
        Marked decl fields init seen seen' st u
  | [], seen, st, _ => by
    unfold checkInits
    refine .pure ⟨.nil, ?_, rfl, fun _ h => .inl h⟩
    intro name hname
    cases hname
  | (name, value) :: rest, seen, st, hgood => by
    obtain ⟨hvalue, hrest⟩ := List.forall_mem_cons.1 hgood
    unfold checkInits
    cases hindex : fieldIndex decl name.name with
    | none =>
      refine (report_silently (Q := fun _ _ => False)).bind fun _ u _ => ?_
      refine .after (hvalue none) fun _ v _ => ?_
      exact (checkInits_silently decl fields rest seen v hrest).mono fun _ _ _ h => h.elim
    | some i =>
      have hslot : Silently st (slot fields i) fun type u =>
          fields.toList[i]? = some type ∧ u = st :=
        .of_ends (forwardRule.slot _ _) fun type u hrun => read_ok hrun
      refine hslot.bind fun type u _ => ?_
      have hagainst : Silently u (checkAgainst type "field" value) fun _ v =>
          checkAgainst type "field" value u = .ok ((), v) :=
        .of_ends (forwardRule.checkAgainst _ _ hvalue) fun _ v hrun => hrun
      refine hagainst.bind fun _ v _ => ?_
      refine (checkInits_silently decl fields rest (seen.set i true) v hrest).mono ?_
      intro seen' w hmarked hrun hslot
      obtain ⟨htype, rfl⟩ := hslot
      refine ⟨.cons hindex htype hrun hmarked.checked, ?_, ?_, ?_⟩
      · intro other hother
        rcases List.mem_cons.1 hother with rfl | hother
        · rw [hindex]
          rfl
        · exact hmarked.known other hother
      · rw [hmarked.length, List.length_set]
      · intro j hj
        rcases hmarked.marks j hj with hset | ⟨other, hother, hj⟩
        · by_cases hij : i = j
          · exact .inr ⟨name.name, List.mem_cons_self .., hij ▸ hindex⟩
          · rw [List.getElem?_set_ne hij] at hset
            exact .inl hset
        · exact .inr ⟨other, List.mem_cons_of_mem _ hother, hj⟩

/-- Without a diagnostic every field is marked. -/
theorem missing_silently (span : Span) : ∀ (fields : List (StructField × Bool)) (st : BodyState),
    Silently st (fields.forM fun field =>
      if field.2 then return
      else report kAnalyzerArityError span ("missing field '" ++ field.1.name.name ++ "'"))
      fun _ _ => ∀ field ∈ fields, field.2 = true
  | [], st => .pure fun _ h => (List.not_mem_nil h).elim
  | field :: rest, st => by
    have hfirst : Silently st (if field.2 then return
        else report kAnalyzerArityError span ("missing field '" ++ field.1.name.name ++ "'") :
          BodyM Unit) fun _ _ => field.2 = true := by
      split
      · next hmarked => exact .pure hmarked
      · exact report_silently
    refine hfirst.bind fun _ u _ => (missing_silently span rest u).mono fun _ _ hrest hmarked => ?_
    exact List.forall_mem_cons.2 ⟨hmarked, hrest⟩

/-! ## The declared types -/

/-- The slot holds a copy of what `resolve_type` gave the type in the module. -/
def DeclaredType (table : Table) (module : Nat) (type : Ty) (idx : TypeIdx) : Prop :=
  ∃ r ∈ table.resolutions, r.module = module ∧ r.type = type ∧ r.self = none ∧
    ∃ node, table.storage.types[r.idx]? = some node ∧ table.storage.types[idx]? = some node

theorem declaredType_of_copy {table : Table} {module : Nat} {types : List Ty} {slots : IdxRange}
    (h : SlotsCopy table module none types slots) {i : Nat} {type : Ty} (hi : types[i]? = some type) :
    ∃ idx, slots.toList[i]? = some idx ∧ DeclaredType table module type idx := by
  obtain ⟨-, idxs, nodes, hlength, hresolutions, hnodes, hslots⟩ := h
  obtain ⟨hlt, -⟩ := List.getElem?_eq_some_iff.1 hi
  have hidx : idxs[i]? = some idxs[i] := List.getElem?_eq_getElem (by omega)
  have hentry (idx : List TypeIdx) (heq : idx.map (table.storage.types[·]?) = nodes.map some) :
      (idx[i]?).map (table.storage.types[·]?) = (nodes[i]?).map some := by
    rw [← List.getElem?_map, heq, List.getElem?_map]
  have hnode := hentry idxs hnodes
  have hslot := hentry slots.toList hslots
  rw [hidx, Option.map_some] at hnode
  rw [← hnode] at hslot
  obtain ⟨node, hnode', heq⟩ := Option.map_eq_some_iff.1 hnode.symm
  obtain ⟨slot, hslot', hcopy⟩ := Option.map_eq_some_iff.1 hslot
  refine ⟨slot, hslot', ⟨module, type, none, idxs[i]⟩, ?_, rfl, rfl, rfl, node, heq.symm, ?_⟩
  · refine hresolutions.subset (List.mem_of_getElem? (i := i) ?_)
    rw [List.getElem?_zipWith, hi, hidx]
  · rw [hcopy, heq]

/-! ## Literals -/

/-- The literal initialises every field of the declaration exactly once and nothing else, and each
value was checked against the declared type of the field that it names. -/
structure InitialisesOnce (table : Table) (decl : StructItem) (init : List (Ident × Operand))
    (st st' : BodyState) : Prop where
  once : (namesOf init).Perm (declaredNames decl)
  checked : ∃ entry ∈ table.nominals, entry.item = .struct decl ∧ ∃ fields : IdxRange,
    (∀ (i : Nat) (field : StructField), decl.fields[i]? = some field →
      ∃ idx, fields.toList[i]? = some idx ∧ DeclaredType table entry.module field.type idx) ∧
    ∃ u v, Onward st.check u.check ∧ InitsChecked decl fields init u v ∧ Onward v.check st'.check

/-- The nominals of a state between the types and the end are those of the types. -/
theorem typed_nominals {typed st : BodyState} (htypes : checkTypes p .start = .ok ((), typed))
    (honward : Onward typed.check st.check) :
    st.check.table.nominals = typed.check.table.nominals := by
  have htyped : Checking p typed := ⟨typed, htypes, Std.Refl.refl _⟩
  exact htyped.nominals.2 st ⟨typed, htypes, honward⟩

/-- The slots that the literal's values are compared with are those of the declared types. -/
theorem structFields_declared {typed st u : BodyState} {e : Nat} {entry : NominalEntry}
    {decl : StructItem} {fields : IdxRange} (htypes : checkTypes p .start = .ok ((), typed))
    (honward : Onward typed.check st.check) (hentry : st.check.table.nominals[e]? = some entry)
    (hitem : entry.item = .struct decl) (h : structFields entry.type st = .ok (fields, u)) :
    entry ∈ typed.check.table.nominals ∧
      ∀ (i : Nat) (field : StructField), decl.fields[i]? = some field →
        ∃ idx, fields.toList[i]? = some idx ∧
          DeclaredType typed.check.table entry.module field.type idx := by
  rw [typed_nominals htypes honward] at hentry
  have hmem := List.mem_of_getElem? hentry
  have hchecked := checkTypes_checked htypes
  have hmirrors := (hchecked.sound.complete entry hmem (hchecked.complete entry hmem)).2
  unfold Mirrors at hmirrors
  rw [hitem] at hmirrors
  obtain ⟨k, row, hnode, hrow, -, hcopy⟩ := hmirrors
  have hfields : fields = row.fields := by
    obtain ⟨hread, -⟩ := read_ok h
    rw [getElem?_mono honward.storage.types hnode] at hread
    have hrow' := getElem?_mono honward.storage.structs hrow
    simp only [Option.bind_eq_bind, Option.bind_some, TypeNode.asStruct, if_pos] at hread
    rw [hrow', Option.bind_some] at hread
    exact (Option.some.inj hread).symm
  refine ⟨hmem, fun i field hfield => ?_⟩
  rw [hfields]
  refine declaredType_of_copy hcopy ?_
  rw [List.getElem?_map, hfield, Option.map_some]

theorem structAt_some {module : Nat} {path : Path} {st : BodyState} {decl : StructItem}
    (h : structAt p module path st = some decl) :
    ∃ e entry, resolveStructPath p module path st = .ok (some e, st) ∧
      st.check.table.nominals[e]? = some entry ∧ entry.item = .struct decl := by
  obtain ⟨u, hresolve, hsame, -⟩ := @resolveStructPath_eq p module path st
  unfold structAt at h
  rw [hresolve] at h
  cases hmeant : structMeant p st.check.table.nominals module path with
  | none =>
    rw [hmeant] at h
    cases h
  | some e =>
    rw [hmeant] at h hresolve hsame
    obtain rfl := hsame rfl
    obtain ⟨decl', u', hdecl, rfl⟩ := run_of_toOption h
    obtain ⟨rfl, entry, hentry, hitem⟩ := structDecl_ok hdecl
    exact ⟨e, entry, hresolve, hentry, hitem⟩

/-- **A literal that is accepted without a diagnostic initialises every field exactly once** exactly
when no field is named twice in it. -/
theorem structLiteral_once_iff {typed st st' : BodyState} {module : Nat} {path : Path}
    {init : List FieldInit} {expected : Option TypeIdx} {span : Span} {type : TypeIdx}
    {decl : StructItem} (htypes : checkTypes p .start = .ok ((), typed))
    (honward : Onward typed.check st.check) (hdecl : structAt p module path st = some decl)
    (hrun : checkExpr p module (.struct span path init none) expected st = .ok (type, st'))
    (hsilent : st'.check.bag = st.check.bag) :
    InitialisesOnce typed.check.table decl (initOperands p module init) st st' ↔
      (namesOf (initOperands p module init)).Nodup := by
  have hgood : ∀ field ∈ initOperands p module init, field.2.Good fun _ => Keeps forward :=
    forwardRule.initOperands module init
  have hchecking : Checking p st := ⟨typed, htypes, honward⟩
  obtain ⟨e, entry, hresolve, hentry, hitem⟩ := structAt_some hdecl
  unfold checkExpr optOperand at hrun
  obtain ⟨found, u, hresolve', hfound⟩ := bind_ok.1 hrun
  cases hresolve.symm.trans hresolve'
  obtain ⟨self, u, hintern, hstruct⟩ := bind_ok.1 hfound
  obtain ⟨rfl, entry', hentry', rfl⟩ := intern_complete hchecking hintern
  cases hentry.symm.trans hentry'
  obtain ⟨decl', u', hdecl', hslots⟩ := bind_ok.1 hstruct
  obtain ⟨rfl, entry', hentry', hitem'⟩ := structDecl_ok hdecl'
  cases hentry.symm.trans hentry'
  cases hitem.symm.trans hitem'
  obtain ⟨fields, u'', hfields, hvalues⟩ := bind_ok.1 hslots
  obtain rfl := (read_ok hfields).2
  obtain ⟨hmem, hdeclared⟩ := structFields_declared htypes honward hentry hitem hfields
  obtain ⟨seen, v, hinits, hmissing⟩ := bind_ok.1 hvalues
  obtain ⟨_, w, hbase, hunify⟩ := bind_ok.1 hmissing
  -- the bag stays as it is on every part of the run
  obtain ⟨hv, hmarked⟩ := checkInits_silently decl fields _ _ _ hgood seen v hinits
  obtain ⟨hw, hmarks⟩ := missing_silently span _ v _ w hbase
  have hst' := (forwardRule.unifyExpected _ _ _ _).ends _ _ _ trivial hunify
  have hvst' : Onward v.check st'.check := IsTrans.trans _ _ _ hw hst'
  obtain ⟨hbagV, hbag⟩ := hv.silent hvst' hsilent
  obtain ⟨hbagW, -⟩ := hw.silent hst' hbag
  have hmarked := hmarked hbagV
  have hall : AllNamed decl (namesOf (initOperands p module init)) := by
    intro i hi
    have hseen : i < seen.length := by
      rw [hmarked.length, List.length_replicate]
      exact hi
    have hmark : seen[i] = true := hmarks hbagW (decl.fields[i], seen[i])
      (List.mem_of_getElem? (i := i) (by simp [List.getElem?_zip_eq_some, hi, hseen]))
    rcases hmarked.marks i (by rw [List.getElem?_eq_getElem hseen, hmark]) with hstart | hnamed
    · rw [List.getElem?_replicate] at hstart
      split at hstart <;> cases hstart
    · exact hnamed
  rw [← perm_declaredNames_iff hall hmarked.known]
  refine ⟨fun h => h.once, fun hperm => ⟨hperm, entry, hmem, hitem, fields, hdeclared, ?_⟩⟩
  exact ⟨_, v, Std.Refl.refl _, hmarked.checked, hvst'⟩

/-! ## Two literals -/

/-- `struct P { a: i32, b: i32 }` -/
def pointStruct : Package :=
  onlyRoot [.struct ⟨default, false, ⟨"P", default⟩,
    ["a", "b"].map fun name => ⟨⟨name, default⟩, .primitive default .i32⟩⟩]

/-- A literal of `P` that gives each of the names the value `1`. -/
def pointWith (names : List String) : List FieldInit :=
  names.map fun name => .mk ⟨name, default⟩ (.literal default ⟨.integer, default, "1"⟩)

/-- What the types and a literal of `P` report, and the names of the fields of `P`. -/
def pointRun (names : List String) (typed : BodyState) :
    Option (List String) × Option (List (Nat × String)) × Bool :=
  ((structAt pointStruct 0 (pathTo ["P"]) typed).map declaredNames,
    reported (checkExpr pointStruct 0 (.struct default (pathTo ["P"]) (pointWith names) none) none
      typed), typed.check.bag.isEmpty)

theorem pointRun_some {names : List String}
    (h : (checkTypes pointStruct .start).toOption.map (fun r => pointRun names r.2) =
      some (some ["a", "b"], some [], true)) :
    ∃ typed st' decl type, checkTypes pointStruct .start = .ok ((), typed) ∧
      structAt pointStruct 0 (pathTo ["P"]) typed = some decl ∧ declaredNames decl = ["a", "b"] ∧
      checkExpr pointStruct 0 (.struct default (pathTo ["P"]) (pointWith names) none) none typed =
        .ok (type, st') ∧ st'.check.bag = typed.check.bag := by
  obtain ⟨_, typed, htypes, hfacts⟩ := run_of_toOption h
  simp only [pointRun, Prod.mk.injEq, List.isEmpty_iff] at hfacts
  obtain ⟨hdecl, hreported, hempty⟩ := hfacts
  obtain ⟨decl, hdecl, hnames⟩ := Option.map_eq_some_iff.1 hdecl
  obtain ⟨type, st', hrun, hbag⟩ := run_of_toOption hreported
  exact ⟨typed, st', decl, type, htypes, hdecl, hnames, hrun, by
    rw [hempty]
    exact List.map_eq_nil_iff.1 hbag⟩

theorem namesOf_pointWith (names : List String) :
    namesOf (initOperands pointStruct 0 (pointWith names)) = names := by
  induction names with
  | nil => simp [pointWith, namesOf, initOperands]
  | cons name rest ih =>
    simp only [pointWith, namesOf, List.map_cons, initOperands, List.cons.injEq, true_and] at ih ⊢
    exact ih

/-- `P { b: 1, a: 1 }` -/
theorem reversed_once : ∃ typed st' decl type, checkTypes pointStruct .start = .ok ((), typed) ∧
    checkExpr pointStruct 0 (.struct default (pathTo ["P"]) (pointWith ["b", "a"]) none) none typed =
      .ok (type, st') ∧ st'.check.bag = typed.check.bag ∧
    InitialisesOnce typed.check.table decl
      (initOperands pointStruct 0 (pointWith ["b", "a"])) typed st' := by
  obtain ⟨typed, st', decl, type, htypes, hdecl, -, hrun, hbag⟩ :=
    @pointRun_some ["b", "a"] (by decide +kernel)
  refine ⟨typed, st', decl, type, htypes, hrun, hbag, ?_⟩
  refine (structLiteral_once_iff htypes (Std.Refl.refl _) hdecl hrun hbag).2 ?_
  rw [namesOf_pointWith]
  decide

/-- Of every literal without a base that is accepted without a diagnostic. -/
def LiteralsOnce : Prop :=
  ∀ (p : Package) (typed st st' : BodyState) (module : Nat) (path : Path) (init : List FieldInit)
    (expected : Option TypeIdx) (span : Span) (type : TypeIdx) (decl : StructItem),
    checkTypes p .start = .ok ((), typed) → Onward typed.check st.check →
    structAt p module path st = some decl →
    checkExpr p module (.struct span path init none) expected st = .ok (type, st') →
    st'.check.bag = st.check.bag →
    InitialisesOnce typed.check.table decl (initOperands p module init) st st'

/-- `P { a: 1, b: 1, a: 1 }` is accepted without a diagnostic. -/
theorem repeated_accepted : ¬ LiteralsOnce ∧
    (checkTypes pointStruct .start).toOption.map (fun r => pointRun ["a", "b", "a"] r.2) =
      some (some ["a", "b"], some [], true) := by
  have hpoint : (checkTypes pointStruct .start).toOption.map
      (fun r => pointRun ["a", "b", "a"] r.2) = some (some ["a", "b"], some [], true) := by
    decide +kernel
  refine ⟨fun hall => ?_, hpoint⟩
  obtain ⟨typed, st', decl, type, htypes, hdecl, hnames, hrun, hbag⟩ := pointRun_some hpoint
  have hperm := (hall _ typed typed st' 0 _ _ none _ type decl htypes (Std.Refl.refl _) hdecl hrun
    hbag).once
  rw [namesOf_pointWith, hnames] at hperm
  exact absurd hperm.length_eq (by decide)

end Alcy.Analyzer.Bodies
