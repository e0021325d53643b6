import Alcy.Analyzer.PatternSteps

/-! # Constructors in expressions and in patterns

`resolve_value_path` and `resolve_variant_path` write the rules for constructors twice: bare names,
`Enum::Variant`, `module::Variant`, and the constructors of `Result` and `Option`. Variants of
declared enums are found alike. A constructor of `Result` or `Option` is found by an expression when
the package has a type of its kind, whatever stands before it, and by a pattern when what stands
before it is the right name, whatever types there are.
-/
namespace Alcy.Analyzer.Bodies
open Alcy.Ast Alcy.Diag Alcy.Ir Alcy.Analyzer.Types
open Alcy.Lib.Contracts (bind_of_ok)

variable {p : Package} {st : BodyState} {module : Nat} {path : Path}

/-! ## What a path constructs -/

/-- A variant of a declared enum, or a constructor of `Result` or `Option`. -/
inductive Constructor where
  | variant (found : VariantMatch)
  | blessed (name : String)
  deriving DecidableEq

def PathValue.constructor : PathValue → Option Constructor
  | .unitVariant found _ | .tupleVariant found _ => some (.variant found)
  | .blessedCtor _ _ name => some (.blessed name)
  | _ => none

/-- The constructor that a finished resolution has found. -/
def constructorOf (result : Except Fault (Option PathValue × BodyState)) : Option Constructor :=
  match result with
  | .ok (some value, _) => value.constructor
  | _ => none

/-- The constructor that a path builds with. -/
def built (p : Package) (module : Nat) (path : Path) (st : BodyState) : Option Constructor :=
  constructorOf (resolveValuePath p module path st)

/-- The constructor that a path matches. -/
def matched (p : Package) (module : Nat) (path : Path) (st : BodyState) : Option Constructor :=
  constructorOf (resolveVariantPath p module path st)

/-- No local, static or function answers for the path. -/
def Unshadowed (p : Package) (module : Nat) (path : Path) (st : BodyState) : Prop :=
  match path.segments.map (·.name) with
  | [name] => st.context.lookupLocal name = none ∧ lookupValue p st.check.modules module name = none
  | [head, member] =>
    if headIsModule p module head then
      ∀ target, walkModulePrefix p.tree module path "value" = .ok target →
        lookupValue p st.check.modules target member = none
    else ∀ method st', assocFunction p
      (findNominalInScope p st.check.table.nominals module head) member st ≠ .ok (some method, st')
  | _ => True

/-! ## Declared variants -/

/-- The only element of a list. -/
def only {α : Type} : List α → Option α
  | [a] => some a
  | _ => none

/-- The declared variant that a path means, in an expression and in a pattern. -/
def declaredVariant (p : Package) (module : Nat) (path : Path) (nominals : List NominalEntry) :
    Option VariantMatch :=
  match path.segments.map (·.name) with
  | [name] => only (findVariantIn nominals module name ++
      importedVariants nominals (p.imports module) name)
  | [head, member] =>
    if headIsModule p module head then
      match walkModulePrefix p.tree module path "value" with
      | .error _ => none
      | .ok target => only (findVariantIn nominals target member)
    else memberVariant nominals (findNominalInScope p nominals module head) member
  | _ => none

/-- The match is a variant of an entry. -/
def VariantMatch.Declared (nominals : List NominalEntry) (found : VariantMatch) : Prop :=
  ∃ entry decl variant, nominals[found.enom]? = some entry ∧ entry.item = .enum decl ∧
    decl.variants[found.variant]? = some variant

theorem mem_variantsNamed {item : NominalItem} {name : String} {i : Nat}
    (h : i ∈ variantsNamed item name) :
    ∃ decl variant, item = .enum decl ∧ decl.variants[i]? = some variant := by
  cases item with
  | struct decl => cases h
  | enum decl =>
    obtain ⟨v, hv, rfl⟩ := List.mem_map.1 h
    exact ⟨decl, v.1, rfl, List.mem_zipIdx_iff_getElem?.1 (List.mem_filter.1 hv).1⟩

theorem declared_of_variantsNamed {nominals : List NominalEntry} {e i : Nat} {entry : NominalEntry}
    {name : String} (he : nominals[e]? = some entry) (hi : i ∈ variantsNamed entry.item name) :
    VariantMatch.Declared nominals ⟨e, i⟩ := by
  obtain ⟨decl, variant, hitem, hvariant⟩ := mem_variantsNamed hi
  exact ⟨entry, decl, variant, he, hitem, hvariant⟩

theorem declared_findVariantIn {nominals : List NominalEntry} {name : String}
    {found : VariantMatch} (h : found ∈ findVariantIn nominals module name) :
    found.Declared nominals := by
  obtain ⟨⟨entry, e⟩, he, h⟩ := List.mem_flatMap.1 h
  dsimp only at h
  split at h
  · obtain ⟨i, hi, rfl⟩ := List.mem_map.1 h
    exact declared_of_variantsNamed (List.mem_zipIdx_iff_getElem?.1 he) hi
  · cases h

theorem declared_importedVariants {nominals : List NominalEntry} {imports : List Resolve.Import}
    {name : String} {found : VariantMatch} (h : found ∈ importedVariants nominals imports name) :
    found.Declared nominals := by
  obtain ⟨imp, -, h⟩ := List.mem_flatMap.1 h
  split at h
  · split at h
    · cases h
    · next e _ =>
      obtain ⟨i, hi, rfl⟩ := List.mem_map.1 h
      cases he : nominals[e]? with
      | none =>
        rw [he] at hi
        cases hi
      | some entry =>
        rw [he] at hi
        exact declared_of_variantsNamed he hi
  · cases h

theorem declared_memberVariant {nominals : List NominalEntry} {nominal : Option Nat}
    {member : String} {found : VariantMatch}
    (h : memberVariant nominals nominal member = some found) : found.Declared nominals := by
  obtain ⟨e, -, h⟩ := Option.bind_eq_some_iff.1 h
  obtain ⟨entry, he, h⟩ := Option.bind_eq_some_iff.1 h
  obtain ⟨i, hi, h⟩ := Option.bind_eq_some_iff.1 h
  cases h
  exact declared_of_variantsNamed he (List.mem_of_mem_head? hi)

theorem mem_of_only {α : Type} {l : List α} {a : α} (h : only l = some a) : l = [a] := by
  unfold only at h
  split at h
  · cases h
    rfl
  · cases h

/-! ## Both resolutions, evaluated -/

/-- Interning a complete nominal finds its type. -/
theorem intern_eq {e : Nat} {entry : NominalEntry} (he : st.check.table.nominals[e]? = some entry)
    (hc : entry.complete = true) : check (intern p e) st = .ok (entry.type, st) := by
  have hnominal : nominal e st.check = some (entry, st.check) := by
    rw [nominal, he]
    rfl
  have hintern : intern p e st.check = some (entry.type, st.check) := by
    show internNominal p st.check.table.nominals.length e st.check = _
    unfold internNominal
    rw [Lib.Total.bind_of_eq hnominal, hc, Bool.true_or, if_pos rfl]
    rfl
  rw [check, hintern]

section
variable (hcomplete : ∀ entry ∈ st.check.table.nominals, entry.complete = true)
  {found : VariantMatch} (hdeclared : found.Declared st.check.table.nominals)
include hcomplete hdeclared

theorem variantValue_eq : ∃ value, variantValue p found st = .ok (value, st) ∧
    value.constructor = some (.variant found) := by
  obtain ⟨entry, decl, variant, he, hitem, hvariant⟩ := hdeclared
  have hdecl : variantDecl found st = .ok (variant, st) := by
    simp only [variantDecl, check, he, Option.bind_eq_bind, Option.bind_some, hitem, hvariant,
      Option.map_some]
  unfold variantValue
  rw [bind_of_ok (intern_eq he (hcomplete entry (List.mem_of_getElem? he))), bind_of_ok hdecl]
  split
  · exact ⟨_, rfl, rfl⟩
  · exact ⟨_, rfl, rfl⟩

theorem patternVariant_eq : ∃ value, patternVariant p found st = .ok (some value, st) ∧
    value.constructor = some (.variant found) := by
  obtain ⟨entry, _, _, he, _, _⟩ := hdeclared
  unfold patternVariant
  rw [bind_of_ok (intern_eq he (hcomplete entry (List.mem_of_getElem? he)))]
  exact ⟨_, rfl, rfl⟩

end

theorem findVariant_eq (module : Nat) (name : String) (span : Span) (st : BodyState) :
    ∃ st', findVariant p module name span st =
        .ok (only (findVariantIn st.check.table.nominals module name ++
          importedVariants st.check.table.nominals (p.imports module) name), st') ∧
      st'.check.table = st.check.table := by
  unfold findVariant
  dsimp only [bind, StateT.bind, get, getThe, MonadStateOf.get, StateT.get, pure, Except.pure,
    Except.bind]
  generalize findVariantIn st.check.table.nominals module name ++
    importedVariants st.check.table.nominals (p.imports module) name = found
  rcases found with _ | ⟨first, _ | ⟨second, rest⟩⟩
  · exact ⟨st, rfl, rfl⟩
  · exact ⟨st, rfl, rfl⟩
  · exact ⟨_, rfl, rfl⟩

theorem findNominal_lt {nominals : List NominalEntry} {name : String} {e : Nat}
    (h : findNominal nominals module name = some e) : e < nominals.length := by
  obtain ⟨hlt, -⟩ := List.findIdx?_eq_some_iff_getElem.1 h
  exact hlt

theorem findNominalInScope_lt {nominals : List NominalEntry} {name : String} {e : Nat}
    (h : findNominalInScope p nominals module name = some e) : e < nominals.length := by
  unfold findNominalInScope at h
  split at h
  · next hfind =>
    cases h
    exact findNominal_lt hfind
  · obtain ⟨imp, -, h⟩ := List.exists_of_findSome?_eq_some h
    split at h
    · exact findNominal_lt h
    · cases h

/-- What is left for a path of a pattern that means no declared variant. -/
def openConstructor (p : Package) (module : Nat) : List String → Option Constructor
  | [name] => (patternCtor name).bind (·.constructor)
  | [head, member] =>
    if headIsModule p module head then none
    else (qualifiedPatternCtor head member).bind (·.constructor)
  | _ => none

/-- What is left for a path of an expression. -/
def firstConstructor (p : Package) (module : Nat) (table : Table) : List String → Option Constructor
  | [name] => (resolveBlessedCtor table name).bind (·.constructor)
  | [head, member] =>
    if headIsModule p module head then none
    else (qualifiedCtor table head member).bind (·.constructor)
  | _ => none

theorem constructorOf_ok (value : Option PathValue) (st : BodyState) :
    constructorOf (.ok (value, st)) = value.bind (·.constructor) := by
  cases value <;> rfl

/-- **A pattern**: the declared variant, or the open constructor. -/
theorem matched_eq (hcomplete : ∀ entry ∈ st.check.table.nominals, entry.complete = true) :
    matched p module path st = match declaredVariant p module path st.check.table.nominals with
      | some found => some (.variant found)
      | none => openConstructor p module (path.segments.map (·.name)) := by
  have hvariant {st' : BodyState} {found : VariantMatch} (htable : st'.check.table = st.check.table)
      (hdeclared : found.Declared st.check.table.nominals) :
      constructorOf (patternVariant p found st') = some (.variant found) := by
    rw [← htable] at hcomplete hdeclared
    obtain ⟨value, heq, hvalue⟩ := patternVariant_eq (p := p) hcomplete hdeclared
    rw [heq]
    exact hvalue
  unfold matched resolveVariantPath declaredVariant
  generalize path.segments.map (·.name) = segments
  rcases segments with _ | ⟨head, _ | ⟨member, _ | ⟨third, rest⟩⟩⟩
  · rfl
  · obtain ⟨st', hfind, htable⟩ := findVariant_eq (p := p) module head path.span st
    dsimp only
    rw [bind_of_ok hfind]
    cases honly : only (findVariantIn st.check.table.nominals module head ++
        importedVariants st.check.table.nominals (p.imports module) head) with
    | none => exact constructorOf_ok _ _
    | some found =>
      have hmem : found ∈ [found] := List.mem_singleton_self found
      rw [← mem_of_only honly, List.mem_append] at hmem
      exact hvariant htable (hmem.elim declared_findVariantIn declared_importedVariants)
  · dsimp only [openConstructor]
    by_cases hhead : headIsModule p module head = true
    · simp only [hhead, if_true]
      unfold walkPrefix
      cases hwalk : walkModulePrefix p.tree module path "value" with
      | error message => rfl
      | ok target =>
        have hget : (get : BodyM BodyState) st = .ok (st, st) := rfl
        have hpure : (pure (some target) : BodyM (Option Nat)) st = .ok (some target, st) := rfl
        dsimp only
        rw [bind_of_ok hpure]
        dsimp only
        rw [bind_of_ok hget]
        rcases hfound : findVariantIn st.check.table.nominals target member with
          _ | ⟨found, _ | ⟨second, rest⟩⟩
        · rfl
        · exact hvariant rfl (declared_findVariantIn (hfound ▸ List.mem_singleton_self found))
        · rfl
    · simp only [hhead]
      have hget : (get : BodyM BodyState) st = .ok (st, st) := rfl
      rw [if_neg Bool.false_ne_true, bind_of_ok hget]
      cases hfound : memberVariant st.check.table.nominals
          (findNominalInScope p st.check.table.nominals module head) member with
      | none => exact constructorOf_ok _ _
      | some found => exact hvariant rfl (declared_memberVariant hfound)
  · rfl

theorem constructorOf_unresolved (span : Span) (message : String) (st : BodyState) :
    constructorOf (unresolved span message st) = none := rfl

/-- A variant that is found is the constructor. -/
theorem constructorOf_variantValue {found : VariantMatch}
    (hcomplete : ∀ entry ∈ st.check.table.nominals, entry.complete = true)
    (hdeclared : found.Declared st.check.table.nominals) :
    constructorOf ((do return some (← variantValue p found) : BodyM (Option PathValue)) st) =
      some (.variant found) := by
  obtain ⟨value, heq, hvalue⟩ := variantValue_eq (p := p) hcomplete hdeclared
  rw [bind_of_ok heq]
  exact hvalue

/-- The end of a name: a declared variant, or the first type of the constructor's kind. -/
theorem resolveOther_constructor (name : String)
    (hcomplete : ∀ entry ∈ st.check.table.nominals, entry.complete = true) :
    constructorOf (resolveOther p module path name st) =
      match only (findVariantIn st.check.table.nominals module name ++
        importedVariants st.check.table.nominals (p.imports module) name) with
      | some found => some (.variant found)
      | none => (resolveBlessedCtor st.check.table name).bind (·.constructor) := by
  obtain ⟨st', hfind, htable⟩ := findVariant_eq (p := p) module name path.span st
  unfold resolveOther
  rw [bind_of_ok hfind]
  cases honly : only (findVariantIn st.check.table.nominals module name ++
      importedVariants st.check.table.nominals (p.imports module) name) with
  | some found =>
    have hmem : found ∈ [found] := List.mem_singleton_self found
    rw [← mem_of_only honly, List.mem_append] at hmem
    refine constructorOf_variantValue (by rwa [htable]) ?_
    rw [htable]
    exact hmem.elim declared_findVariantIn declared_importedVariants
  | none =>
    have hget : (get : BodyM BodyState) st' = .ok (st', st') := rfl
    dsimp only
    rw [bind_of_ok hget, htable]
    cases resolveBlessedCtor st.check.table name with
    | some value => rfl
    | none =>
      dsimp only
      split
      · rfl
      · exact constructorOf_unresolved _ _ st'

/-- A path behind a module: a value of the module has been excluded. -/
theorem resolveInModule_constructor (member : String)
    (hcomplete : ∀ entry ∈ st.check.table.nominals, entry.complete = true)
    (hun : ∀ target, walkModulePrefix p.tree module path "value" = .ok target →
      lookupValue p st.check.modules target member = none) :
    constructorOf (resolveInModule p true module path member st) =
      match (match walkModulePrefix p.tree module path "value" with
        | .error _ => none
        | .ok target => only (findVariantIn st.check.table.nominals target member)) with
      | some found => some (.variant found)
      | none => none := by
  unfold resolveInModule walkPrefix
  cases hwalk : walkModulePrefix p.tree module path "value" with
  | error message => rfl
  | ok target =>
    have hpure : (pure (some target) : BodyM (Option Nat)) st = .ok (some target, st) := rfl
    have hget : (get : BodyM BodyState) st = .ok (st, st) := rfl
    dsimp only
    rw [bind_of_ok hpure]
    dsimp only
    rw [bind_of_ok hget, hun target hwalk]
    simp only [if_true]
    rcases hfound : findVariantIn st.check.table.nominals target member with
      _ | ⟨found, _ | ⟨second, rest⟩⟩
    · exact constructorOf_unresolved _ _ st
    · exact constructorOf_variantValue hcomplete
        (declared_findVariantIn (hfound ▸ List.mem_singleton_self found))
    · exact constructorOf_unresolved _ _ st

/-- `Type::member`: an associated function has been excluded. -/
theorem resolveMember_constructor (head member : String)
    (hcomplete : ∀ entry ∈ st.check.table.nominals, entry.complete = true)
    (hun : ∀ method st', assocFunction p
      (findNominalInScope p st.check.table.nominals module head) member st ≠
        .ok (some method, st')) :
    constructorOf (resolveMember p module path head member st) =
      match memberVariant st.check.table.nominals
        (findNominalInScope p st.check.table.nominals module head) member with
      | some found => some (.variant found)
      | none => (qualifiedCtor st.check.table head member).bind (·.constructor) := by
  have hget : (get : BodyM BodyState) st = .ok (st, st) := rfl
  unfold resolveMember
  rw [bind_of_ok hget]
  cases hfound : memberVariant st.check.table.nominals
      (findNominalInScope p st.check.table.nominals module head) member with
  | some found => exact constructorOf_variantValue hcomplete (declared_memberVariant hfound)
  | none =>
    have hassoc : assocFunction p (findNominalInScope p st.check.table.nominals module head)
        member st = .ok (none, st) := by
      cases hnominal : findNominalInScope p st.check.table.nominals module head with
      | none => rfl
      | some e =>
        obtain ⟨entry, he⟩ : ∃ entry, st.check.table.nominals[e]? = some entry :=
          ⟨_, List.getElem?_eq_getElem (findNominalInScope_lt hnominal)⟩
        have hintern := intern_eq (p := p) he (hcomplete entry (List.mem_of_getElem? he))
        have heq : assocFunction p (some e) member st =
            .ok ((lookupMethod p st.check.modules entry.type member).filter
              fun method => method.receiver = .none, st) :=
          (bind_of_ok hintern).trans (bind_of_ok hget)
        rw [hnominal, heq] at hun
        rw [heq]
        generalize (lookupMethod p st.check.modules entry.type member).filter _ = found at hun
        cases found with
        | none => rfl
        | some method => exact absurd rfl (hun method st)
    dsimp only
    rw [bind_of_ok hassoc]
    dsimp only
    rw [bind_of_ok hget]
    cases qualifiedCtor st.check.table head member with
    | some value => rfl
    | none => exact constructorOf_unresolved _ _ st

/-- A static or a function constructs nothing. -/
theorem lookupValue_constructor {target : Nat} {name : String} {value : PathValue}
    (h : lookupValue p st.check.modules target name = some value) : value.constructor = none := by
  unfold lookupValue at h
  split at h
  · cases h
    rfl
  · obtain ⟨_, -, rfl⟩ := Option.map_eq_some_iff.1 h
    rfl

/-- Variants of other modules are not found by longer paths. -/
theorem resolveInModule_long (member : String) :
    constructorOf (resolveInModule p false module path member st) = none := by
  unfold resolveInModule walkPrefix
  cases walkModulePrefix p.tree module path "value" with
  | error message => rfl
  | ok target =>
    have hpure : (pure (some target) : BodyM (Option Nat)) st = .ok (some target, st) := rfl
    have hget : (get : BodyM BodyState) st = .ok (st, st) := rfl
    dsimp only
    rw [bind_of_ok hpure]
    dsimp only
    rw [bind_of_ok hget]
    cases hvalue : lookupValue p st.check.modules target member with
    | some value => exact lookupValue_constructor hvalue
    | none => exact constructorOf_unresolved _ _ st

/-- **An expression** that nothing shadows: the declared variant, or the constructor of a type that
there is. -/
theorem built_eq (hcomplete : ∀ entry ∈ st.check.table.nominals, entry.complete = true)
    (hun : Unshadowed p module path st) :
    built p module path st = match declaredVariant p module path st.check.table.nominals with
      | some found => some (.variant found)
      | none => firstConstructor p module st.check.table (path.segments.map (·.name)) := by
  unfold built resolveValuePath declaredVariant
  unfold Unshadowed at hun
  generalize path.segments.map (·.name) = segments at hun
  rcases segments with _ | ⟨head, _ | ⟨member, _ | ⟨third, rest⟩⟩⟩
  · rfl
  · have hget : (get : BodyM BodyState) st = .ok (st, st) := rfl
    dsimp only at hun ⊢
    unfold resolveName
    rw [bind_of_ok hget, hun.1]
    dsimp only
    rw [hun.2]
    exact resolveOther_constructor head hcomplete
  · dsimp only [firstConstructor] at hun ⊢
    by_cases hhead : headIsModule p module head = true
    · simp only [hhead, if_true] at hun ⊢
      exact resolveInModule_constructor member hcomplete hun
    · rw [if_neg hhead] at hun
      simp only [if_neg hhead]
      exact resolveMember_constructor head member hcomplete hun
  · exact resolveInModule_long _

/-! ## Constructors of `Result` and `Option` -/

/-- Whose constructor a name is: `true` for `Result`, `false` for `Option`. -/
def builtinKind (name : String) : Option Bool :=
  if name = "Ok" ∨ name = "Err" then some true
  else if name = "Some" ∨ name = "None" then some false
  else none

def builtinName (isResult : Bool) : String := if isResult then "Result" else "Option"

/-- Some `Result` type, or some `Option` type, has been resolved. -/
def Instantiated (table : Table) (isResult : Bool) : Prop :=
  ∃ entry ∈ table.blessed, entry.isResult = isResult

/-- The names of the constructors, with the test of `resolve_blessed_ctor`. -/
theorem builtinKind_eq (name : String) : builtinKind name =
    if name = "Ok" ∨ name = "Err" ∨ name = "Some" ∨ name = "None" then
      some (name = "Ok" || name = "Err")
    else none := by
  unfold builtinKind
  by_cases hok : name = "Ok"
  · simp [hok]
  by_cases herr : name = "Err"
  · simp [herr]
  simp [hok, herr]

/-- An expression finds a constructor where its type is instantiated. -/
theorem resolveBlessedCtor_constructor (table : Table) (name : String) :
    (resolveBlessedCtor table name).bind (·.constructor) =
      (builtinKind name).bind fun kind =>
        if table.blessed.any (·.isResult = kind) then some (.blessed name) else none := by
  rw [builtinKind_eq, resolveBlessedCtor]
  split
  · rw [Option.bind_some, Option.bind_map]
    cases hfind : table.blessed.find? fun entry =>
        entry.isResult = (name = "Ok" || name = "Err") with
    | none =>
      have hnone := List.find?_eq_none.1 hfind
      rw [if_neg]
      · rfl
      · rw [List.any_eq_true]
        rintro ⟨entry, hentry, hkind⟩
        exact hnone entry hentry hkind
    | some entry =>
      rw [if_pos]
      · rfl
      · have hkind := List.find?_some hfind
        exact List.any_eq_true.2 ⟨entry, List.mem_of_find?_eq_some hfind, hkind⟩
  · rfl

/-- A pattern finds it everywhere. -/
theorem patternCtor_constructor (name : String) : (patternCtor name).bind (·.constructor) =
    (builtinKind name).map fun _ => .blessed name := by
  rw [builtinKind_eq, patternCtor]
  split <;> rfl

/-- And behind the name of its type. -/
theorem qualifiedPatternCtor_constructor (head member : String) :
    (qualifiedPatternCtor head member).bind (·.constructor) = (builtinKind member).bind fun kind =>
      if head = builtinName kind then some (.blessed member) else none := by
  unfold qualifiedPatternCtor builtinKind
  by_cases hresult : member = "Ok" ∨ member = "Err"
  · have hoption : ¬ (member = "Some" ∨ member = "None") := by
      rcases hresult with rfl | rfl <;> decide
    simp only [hresult, hoption, and_true, and_false, or_false, if_true, Option.bind_some,
      builtinName]
    split <;> rfl
  · by_cases hoption : member = "Some" ∨ member = "None"
    · simp only [hresult, hoption, and_true, and_false, false_or, if_true, if_false,
        Option.bind_some, builtinName, Bool.false_eq_true]
      split <;> rfl
    · simp [hresult, hoption]

/-- Where a path is left to the constructors of `Result` and `Option`: a bare one needs a type of
its kind, and one behind `Result` or `Option` needs it exactly where that is its own type. -/
def BuiltinsAgree (p : Package) (module : Nat) (table : Table) : List String → Prop
  | [name] => ∀ kind, builtinKind name = some kind → Instantiated table kind
  | [head, member] => headIsModule p module head = false → head = "Result" ∨ head = "Option" →
      ∀ kind, builtinKind member = some kind → (Instantiated table kind ↔ head = builtinName kind)
  | _ => True

theorem instantiated_iff {table : Table} {kind : Bool} :
    table.blessed.any (·.isResult = kind) = true ↔ Instantiated table kind := by
  simp only [List.any_eq_true, decide_eq_true_eq, Instantiated]

theorem builtins_iff (table : Table) (segments : List String) :
    firstConstructor p module table segments = openConstructor p module segments ↔
      BuiltinsAgree p module table segments := by
  rcases segments with _ | ⟨head, _ | ⟨member, _ | ⟨third, rest⟩⟩⟩
  · simp [firstConstructor, openConstructor, BuiltinsAgree]
  · simp only [firstConstructor, openConstructor, BuiltinsAgree, resolveBlessedCtor_constructor,
      patternCtor_constructor, ← instantiated_iff]
    cases builtinKind head with
    | none => simp
    | some kind => simp
  · simp only [firstConstructor, openConstructor, BuiltinsAgree, qualifiedCtor,
      qualifiedPatternCtor_constructor, ← instantiated_iff]
    cases headIsModule p module head with
    | true => simp
    | false =>
      by_cases hhead : head = "Result" ∨ head = "Option"
      · simp only [hhead, if_true, resolveBlessedCtor_constructor]
        cases builtinKind member with
        | none => simp
        | some kind =>
          by_cases hname : head = builtinName kind <;> simp [hname]
      · have hname (kind : Bool) : head ≠ builtinName kind := by
          rintro rfl
          cases kind <;> simp [builtinName] at hhead
        cases builtinKind member <;> simp [hhead, hname]
  · simp [firstConstructor, openConstructor, BuiltinsAgree]

/-- **A path builds and matches the same constructor** while bodies are checked exactly where it
means a declared variant, or the constructors of `Result` and `Option` agree on it. -/
theorem built_eq_matched_iff (h : Checking p st) (hun : Unshadowed p module path st) :
    built p module path st = matched p module path st ↔
      ((declaredVariant p module path st.check.table.nominals).isSome = true ∨
        BuiltinsAgree p module st.check.table (path.segments.map (·.name))) := by
  rw [built_eq h.nominals.1 hun, matched_eq h.nominals.1]
  cases declaredVariant p module path st.check.table.nominals with
  | some found => simp
  | none =>
    rw [builtins_iff]
    simp

/-- `fn f(_: Result<i32, i32>) {}` -/
def fallible : Package :=
  let number : Ty := .primitive default .i32
  onlyRoot [.fn (fnOf "f" [⟨.wildcard default, .path default (pathTo ["Result"]) [number, number]⟩]
    none none)]

/-- What a path builds and matches when the types have been resolved, and the number of nominals. -/
def builtAndMatched (p : Package) (path : Path) :
    Option (Option Constructor × Option Constructor × Nat) :=
  (typed p).map fun st => (built p 0 path st, matched p 0 path st, st.check.table.nominals.length)

theorem typed_checking {p : Package} {st : BodyState} (h : typed p = some st) : Checking p st := by
  obtain ⟨⟨_, st⟩, hrun, rfl⟩ := Option.map_eq_some_iff.1 h
  refine ⟨st, ?_, Std.Refl.refl _⟩
  cases hresult : checkTypes p .start with
  | error fault =>
    rw [hresult] at hrun
    cases hrun
  | ok result =>
    rw [hresult] at hrun
    cases hrun
    rfl

/-- Behind the name of a built-in type no associated function is found where no nominal is. -/
theorem unshadowed_fallible {head member : String} (hhead : headIsModule fallible 0 head = false)
    (hst : st.check.table.nominals = []) : Unshadowed fallible 0 (pathTo [head, member]) st := by
  show if headIsModule fallible 0 head = true then _ else _
  rw [if_neg (by simp [hhead]), hst]
  exact fun method st' h => by cases h

theorem builtAndMatched_some {path : Path} {b m : Option Constructor}
    (h : builtAndMatched p path = some (b, m, 0)) : ∃ st, Checking p st ∧
      st.check.table.nominals = [] ∧ built p 0 path st = b ∧ matched p 0 path st = m := by
  obtain ⟨st, htyped, heq⟩ := Option.map_eq_some_iff.1 h
  simp only [Prod.mk.injEq] at heq
  exact ⟨st, typed_checking htyped, List.length_eq_zero_iff.1 heq.2.2, heq.1, heq.2.1⟩

/-- `Option::Ok` builds a `Result`, and no pattern matches with it. -/
theorem optionOk_unmatched : ∃ st, Checking fallible st ∧
    Unshadowed fallible 0 (pathTo ["Option", "Ok"]) st ∧
    built fallible 0 (pathTo ["Option", "Ok"]) st = some (.blessed "Ok") ∧
    matched fallible 0 (pathTo ["Option", "Ok"]) st = none := by
  have hrun : builtAndMatched fallible (pathTo ["Option", "Ok"]) =
      some (some (.blessed "Ok"), none, 0) := by decide +kernel
  obtain ⟨st, hst, hnominals, hbuilt, hmatched⟩ := builtAndMatched_some hrun
  exact ⟨st, hst, unshadowed_fallible (by decide +kernel) hnominals, hbuilt, hmatched⟩

/-- `Result::Ok` does both. -/
theorem resultOk_agrees : ∃ st, Checking fallible st ∧
    Unshadowed fallible 0 (pathTo ["Result", "Ok"]) st ∧
    built fallible 0 (pathTo ["Result", "Ok"]) st = some (.blessed "Ok") ∧
    ((declaredVariant fallible 0 (pathTo ["Result", "Ok"]) st.check.table.nominals).isSome = true ∨
      BuiltinsAgree fallible 0 st.check.table ["Result", "Ok"]) := by
  have hrun : builtAndMatched fallible (pathTo ["Result", "Ok"]) =
      some (some (.blessed "Ok"), some (.blessed "Ok"), 0) := by decide +kernel
  obtain ⟨st, hst, hnominals, hbuilt, hmatched⟩ := builtAndMatched_some hrun
  have hun : Unshadowed fallible 0 (pathTo ["Result", "Ok"]) st :=
    unshadowed_fallible (by decide +kernel) hnominals
  exact ⟨st, hst, hun, hbuilt, (built_eq_matched_iff hst hun).1 (hbuilt.trans hmatched.symm)⟩

end Alcy.Analyzer.Bodies
