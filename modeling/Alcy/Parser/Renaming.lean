import Alcy.Parser.Scoping
import Mathlib.Data.List.Nodup

/-! # Renamed scopes

A renaming is a stack of scopes that gives every local its name in the original
tree and the spelling the pass stored for it. `Tracks` ties the scopes of the
pass to one, `Aligned` the environments of the two trees; together they make a
name mean the same binder before and after. -/
namespace Alcy.Parser
open Alcy.Ast Alcy.Diag
open Scoping (Env mapNames mapNamesAll mapNamesFields)

/-! ## The names in a tree -/

mutual

/-- The names a pattern spells as binders, those of later alternatives included. -/
def binders : Pattern → List String
  | .wildcard _ | .literal _ _ => []
  | .ident _ name | .mutIdent _ name => [name.name]
  | .tuple _ _ elements => bindersAll elements
  | .struct _ _ fields => bindersFields fields
  | .ref _ _ inner => binders inner
  | .or _ alternatives => bindersAll alternatives

def bindersAll : List Pattern → List String
  | [] => []
  | p :: rest => binders p ++ bindersAll rest

def bindersFields : List (Ident × Pattern) → List String
  | [] => []
  | (_, p) :: rest => binders p ++ bindersFields rest

end

mutual

theorem mapNames_congr {f g : String → String} : ∀ (p : Pattern),
    (∀ x ∈ binders p, f x = g x) → mapNames f p = mapNames g p
  | .wildcard _, _ | .literal _ _, _ => rfl
  | .ident _ name, h => by simp only [mapNames, h name.name (by simp [binders])]
  | .mutIdent _ name, h => by simp only [mapNames, h name.name (by simp [binders])]
  | .tuple _ _ elements, h => by simp only [mapNames, mapNamesAll_congr elements h]
  | .struct _ _ fields, h => by simp only [mapNames, mapNamesFields_congr fields h]
  | .ref _ _ inner, h => by simp only [mapNames, mapNames_congr inner h]
  | .or _ alternatives, h => by simp only [mapNames, mapNamesAll_congr alternatives h]

theorem mapNamesAll_congr {f g : String → String} : ∀ (ps : List Pattern),
    (∀ x ∈ bindersAll ps, f x = g x) → mapNamesAll f ps = mapNamesAll g ps
  | [], _ => rfl
  | p :: rest, h => by
    rw [mapNamesAll, mapNamesAll, mapNames_congr p fun x hx => h x (by simp [bindersAll, hx]),
      mapNamesAll_congr rest fun x hx => h x (by simp [bindersAll, hx])]

theorem mapNamesFields_congr {f g : String → String} : ∀ (fs : List (Ident × Pattern)),
    (∀ x ∈ bindersFields fs, f x = g x) → mapNamesFields f fs = mapNamesFields g fs
  | [], _ => rfl
  | (_, p) :: rest, h => by
    rw [mapNamesFields, mapNamesFields,
      mapNames_congr p fun x hx => h x (by simp [bindersFields, hx]),
      mapNamesFields_congr rest fun x hx => h x (by simp [bindersFields, hx])]

end

mutual

theorem mapNames_mapNames (f g : String → String) : ∀ p : Pattern,
    mapNames g (mapNames f p) = mapNames (fun x => g (f x)) p
  | .wildcard _ | .literal _ _ | .ident _ _ | .mutIdent _ _ => rfl
  | .tuple _ _ elements => by simp only [mapNames, mapNamesAll_mapNamesAll f g elements]
  | .struct _ _ fields => by simp only [mapNames, mapNamesFields_mapNamesFields f g fields]
  | .ref _ _ inner => by simp only [mapNames, mapNames_mapNames f g inner]
  | .or _ alternatives => by simp only [mapNames, mapNamesAll_mapNamesAll f g alternatives]

theorem mapNamesAll_mapNamesAll (f g : String → String) : ∀ ps : List Pattern,
    mapNamesAll g (mapNamesAll f ps) = mapNamesAll (fun x => g (f x)) ps
  | [] => rfl
  | p :: rest => by
    simp only [mapNamesAll, mapNames_mapNames f g p, mapNamesAll_mapNamesAll f g rest]

theorem mapNamesFields_mapNamesFields (f g : String → String) : ∀ fs : List (Ident × Pattern),
    mapNamesFields g (mapNamesFields f fs) = mapNamesFields (fun x => g (f x)) fs
  | [] => rfl
  | (_, p) :: rest => by
    simp only [mapNamesFields, mapNames_mapNames f g p, mapNamesFields_mapNamesFields f g rest]

end

/-- The binders and the single-segment value paths. -/
def pathNames (path : Path) : List String :=
  match path.segments with
  | [segment] => [segment.name]
  | _ => []

mutual

def exprNames : Expr → List String
  | .literal _ _ | .breakExpr _ | .continueExpr _ => []
  | .path _ path => pathNames path
  | .struct _ _ init baseExpr => fieldInitNames init ++ optionNames baseExpr
  | .tuple _ elements => exprsNames elements
  | .unary _ _ inner | .borrow _ _ inner | .cast _ inner _ | .field _ inner _
  | .question _ inner => exprNames inner
  | .binary _ _ lhs rhs => exprNames lhs ++ exprNames rhs
  | .call _ callee args => exprNames callee ++ exprsNames args
  | .methodCall _ receiver _ args => exprNames receiver ++ exprsNames args
  | .index _ receiver index => exprNames receiver ++ exprNames index
  | .ifExpr _ cond thenBlock elseBlock =>
    condNames cond ++ (blockNames thenBlock ++ optBlockNames elseBlock)
  | .matchExpr _ scrutinee arms => exprNames scrutinee ++ armNames arms
  | .loop _ body => blockNames body
  | .whileExpr _ cond body => condNames cond ++ blockNames body
  | .block _ block => blockNames block
  | .returnExpr _ value => optionNames value
  | .range _ start stop _ => optionNames start ++ optionNames stop

def exprsNames : List Expr → List String
  | [] => []
  | e :: rest => exprNames e ++ exprsNames rest

def optionNames : Option Expr → List String
  | none => []
  | some e => exprNames e

def fieldInitNames : List FieldInit → List String
  | [] => []
  | .mk _ value :: rest => exprNames value ++ fieldInitNames rest

def condNames : Cond → List String
  | .pattern pattern init => exprNames init ++ binders pattern
  | .value value => exprNames value

def armNames : List MatchArm → List String
  | [] => []
  | .mk pattern body :: rest => binders pattern ++ (exprNames body ++ armNames rest)

def blockNames : Block → List String
  | .mk _ statements value => stmtsNames statements ++ optionNames value

def optBlockNames : Option Block → List String
  | none => []
  | some block => blockNames block

def stmtsNames : List Stmt → List String
  | [] => []
  | stmt :: rest => stmtNames stmt ++ stmtsNames rest

def stmtNames : Stmt → List String
  | .decl _ pattern _ init => exprNames init ++ binders pattern
  | .reassign _ place _ _ value => exprNames place ++ exprNames value
  | .expr _ value => exprNames value

end

def fnNames (fn : FnItem) : List String :=
  bindersAll (fn.params.map (·.pattern)) ++ blockNames fn.body

def methodNames : List FnItem → List String
  | [] => []
  | method :: rest => fnNames method ++ methodNames rest

mutual

def itemNames : Item → List String
  | .fn fn => fnNames fn
  | .impl impl => methodNames impl.methods
  | .mod _ _ _ items _ => itemsNames items
  | .static decl | .const decl => exprNames decl.init
  | .struct _ | .enum _ | .use _ => []

def itemsNames : List Item → List String
  | [] => []
  | item :: rest => itemNames item ++ itemsNames rest

end

/-- What the parser makes of a file: its names are identifiers and keywords, which
have no dollar sign, and there are fewer of them than byte offsets. -/
structure Parsed (items : List Item) : Prop where
  plain : ∀ x ∈ itemsNames items, '$' ∉ x.toList
  few : (itemsNames items).length < 2 ^ 32

/-! ## Fresh names -/

/-- An identifier of the source. -/
def Plain (x : String) : Prop := '$' ∉ x.toList

theorem freshName_toList (x : String) (k : Nat) :
    (Desugar.freshName x k).toList = x.toList ++ '$' :: (toString k).toList := by
  simp [Desugar.freshName]

theorem freshName_not_plain (x : String) (k : Nat) : ¬ Plain (Desugar.freshName x k) := by
  simp [Plain, freshName_toList]

theorem freshName_counter {x y : String} {i j : Nat} (hx : Plain x) (hy : Plain y)
    (h : Desugar.freshName x i = Desugar.freshName y j) : i = j := by
  have hlist := congrArg String.toList h
  rw [freshName_toList, freshName_toList] at hlist
  -- the first dollar sign ends the original name on both sides
  have hd : ∀ {l : List Char} {ds : List Char}, '$' ∉ l →
      (l ++ '$' :: ds).dropWhile (· != '$') = '$' :: ds := by
    intro l ds hl
    induction l with
    | nil => rfl
    | cons c l ih =>
      simp only [List.mem_cons, not_or] at hl
      simp only [List.cons_append, List.dropWhile_cons, bne_iff_ne, ne_eq, Ne.symm hl.1,
        not_false_eq_true, if_true]
      exact ih hl.2
  have hdrop := congrArg (List.dropWhile (· != '$')) hlist
  rw [hd hx, hd hy] at hdrop
  have hdigits := congrArg (fun ds => Nat.ofDigitChars 10 ds 0) (List.cons.inj hdrop).2
  simpa [Nat.toString_eq_ofList_toDigits] using hdigits

theorem plain_of_keyword {x : String} (h : isKeywordName x = true) : Plain x := by
  simp only [isKeywordName, Bool.or_eq_true, beq_iff_eq] at h
  unfold Plain
  rcases h with ((rfl | rfl) | rfl) | rfl <;> decide

/-! ## Renamings -/

/-- The locals in scope, each with its name and its new spelling, innermost scope
first. -/
abbrev Renaming := List (List (String × String))

/-- The locals the pass keeps track of. -/
def tracked (scope : List (String × String)) : List (String × String) :=
  scope.filter fun r => !isKeywordName r.1

@[simp] theorem tracked_nil : tracked [] = [] := rfl

@[simp] theorem tracked_append (a b : List (String × String)) :
    tracked (a ++ b) = tracked a ++ tracked b := by simp [tracked]

theorem mem_tracked {scope : List (String × String)} {r : String × String} :
    r ∈ tracked scope ↔ r ∈ scope ∧ isKeywordName r.1 = false := by simp [tracked]

def toBinding (r : String × String) : Binding := ⟨r.1, r.2, false, false⟩

/-- How the spelling of a local was chosen, below a counter. -/
def Spelled (counter : Nat) (r : String × String) : Prop :=
  if isKeywordName r.1 then r.2 = r.1
  else Plain r.1 ∧ (r.2 = r.1 ∨ ∃ k < counter, r.2 = Desugar.freshName r.1 k)

/-- The scopes of the pass are those of a renaming with distinct spellings. -/
structure Tracks (s : Desugar) (R : Renaming) : Prop where
  scopes : s.scopes = R.map fun scope => (tracked scope).map toBinding
  spelled : ∀ r ∈ R.flatten, Spelled s.counter r
  distinct : ((tracked R.flatten).map (·.2)).Nodup

theorem Spelled.mono {a b : Nat} {r : String × String} (h : Spelled a r) (hab : a ≤ b) :
    Spelled b r := by
  unfold Spelled at *
  split
  · next hk => rwa [if_pos hk] at h
  · next hk =>
    rw [if_neg hk] at h
    exact ⟨h.1, h.2.imp_right fun ⟨k, hlt, hr⟩ => ⟨k, by omega, hr⟩⟩

/-- A new spelling is a keyword only for the keyword itself. -/
theorem Spelled.keyword {counter : Nat} {r : String × String} (h : Spelled counter r) :
    isKeywordName r.2 = isKeywordName r.1 := by
  unfold Spelled at h
  split at h
  · next hk => rw [h]
  · rcases h.2 with h | ⟨k, -, h⟩
    · rw [h]
    · cases hk : isKeywordName r.2 with
      | true => exact absurd (h ▸ plain_of_keyword hk) (freshName_not_plain _ _)
      | false => simp_all

/-- A plain spelling is the name itself. -/
theorem Spelled.plain {counter : Nat} {r : String × String} (h : Spelled counter r)
    (hp : Plain r.2) : r.2 = r.1 := by
  unfold Spelled at h
  split at h
  · exact h
  · rcases h.2 with h | ⟨k, -, h⟩
    · exact h
    · exact absurd (h ▸ hp) (freshName_not_plain _ _)

/-- What a renaming makes of a name. -/
def rename (locals : List (String × String)) (x : String) : String :=
  if isKeywordName x then x
  else (((tracked locals).find? (·.1 == x)).map (·.2)).getD x

theorem Tracks.lookup {s : Desugar} {R : Renaming} (h : Tracks s R) (x : String) :
    s.lookup x = rename R.flatten x := by
  have hflat : s.scopes.flatten = (tracked R.flatten).map toBinding := by
    rw [h.scopes]
    clear h
    induction R with
    | nil => rfl
    | cons scope R ih => simp [ih]
  unfold Desugar.lookup rename
  split
  · rfl
  · rw [hflat, List.find?_map,
      show (fun b : Binding => b.orig == x) ∘ toBinding = fun r => r.1 == x from rfl]
    cases (tracked R.flatten).find? _ <;> rfl

theorem rename_cons (r : String × String) (locals : List (String × String)) (x : String) :
    rename (r :: locals) x =
      if isKeywordName x then x else if r.1 == x then r.2 else rename locals x := by
  unfold rename
  cases hk : isKeywordName x with
  | true => rfl
  | false =>
    by_cases hr : r.1 = x
    · simp [tracked, hr, hk]
    · cases hkr : isKeywordName r.1 <;> simp [tracked, hr, hkr]

theorem rename_cases {locals : List (String × String)} {x : String}
    (hk : isKeywordName x = false) :
    ((∀ r ∈ locals, r.1 ≠ x) ∧ rename locals x = x) ∨
      ∃ r ∈ tracked locals, r.1 = x ∧ rename locals x = r.2 := by
  simp only [rename, hk, Bool.false_eq_true, if_false]
  cases hf : (tracked locals).find? (·.1 == x) with
  | none =>
    refine .inl ⟨fun r hr hx => ?_, rfl⟩
    have := List.find?_eq_none.mp hf r (mem_tracked.mpr ⟨hr, by rw [hx]; exact hk⟩)
    simp [hx] at this
  | some r => exact .inr ⟨r, List.mem_of_find?_eq_some hf, by simpa using List.find?_some hf, rfl⟩

/-! ## Aligned environments -/

/-- A local with its name, its new spelling and its number. -/
abbrev Numbered := String × String × Nat

def Numbered.pair (t : Numbered) : String × String := (t.1, t.2.1)
def Numbered.before (t : Numbered) : String × Nat := (t.1, t.2.2)
def Numbered.after (t : Numbered) : String × Nat := t.2

/-- The two environments have the same binders, under the names of a renaming. -/
def Aligned (R : Renaming) (env env' : Env) : Prop :=
  ∃ T : List (List Numbered), R = T.map (·.map (·.pair)) ∧ env = T.map (·.map (·.before)) ∧
    env' = T.map (·.map (·.after))

/-- A name before and its new spelling after find the same local. -/
theorem find_renamed {L : List Numbered} {counter : Nat}
    (hs : ∀ t ∈ L, Spelled counter t.pair)
    (hd : ((tracked (L.map (·.pair))).map (·.2)).Nodup) {x : String} (hx : Plain x) :
    L.find? (·.1 == x) = L.find? (·.2.1 == rename (L.map (·.pair)) x) := by
  induction L with
  | nil => rfl
  | cons t L ih =>
    have hst := hs t (by simp)
    have hd' : ((tracked (L.map (·.pair))).map (·.2)).Nodup := by
      refine hd.sublist (List.Sublist.map _ ?_)
      exact (List.sublist_cons_self _ _).filter _
    have ih := ih (fun u hu => hs u (by simp [hu])) hd'
    rw [List.map_cons, rename_cons, List.find?_cons, List.find?_cons]
    -- it is enough that the head is found on both sides or on neither
    have hgoal : ∀ y : String, (t.1 = x ↔ t.2.1 = y) → (t.1 ≠ x → y = rename (L.map (·.pair)) x) →
        (match t.1 == x with | true => some t | false => L.find? (·.1 == x)) =
          match t.2.1 == y with | true => some t | false => L.find? (·.2.1 == y) := by
      intro y hiff hy
      by_cases h : t.1 = x
      · simp [h, hiff.mp h]
      · rw [beq_eq_false_iff_ne.mpr h, beq_eq_false_iff_ne.mpr (mt hiff.mpr h), hy h]
        exact ih
    refine hgoal _ ?_ fun hne => ?_
    · cases hk : isKeywordName x with
      | true =>
        rw [if_pos rfl]
        refine ⟨fun h => ?_, fun h => ?_⟩
        · have := hst.plain (r := t.pair) (plain_of_keyword (by rw [hst.keyword, ← hk, ← h]; rfl))
          exact this.trans h
        · exact (hst.plain (r := t.pair) (by rw [← h] at hx; exact hx)).symm.trans h
      | false =>
        rw [if_neg (by simp)]
        by_cases h : t.1 = x
        · rw [if_pos (by simpa [Numbered.pair] using h)]
          exact ⟨fun _ => rfl, fun _ => h⟩
        · rw [if_neg (by simpa [Numbered.pair] using h)]
          refine ⟨fun h' => absurd h' h, fun h' => ?_⟩
          rcases rename_cases hk with ⟨-, hr⟩ | ⟨r, hr, -, hrename⟩
          · rw [hr] at h'
            exact absurd ((hst.plain (r := t.pair) (by rw [← h'] at hx; exact hx)).symm.trans h') h
          · rw [hrename] at h'
            obtain ⟨u, hu, rfl⟩ := List.mem_map.mp (mem_tracked.mp hr).1
            have hkt : isKeywordName t.pair.1 = false := by
              rw [← hst.keyword, show t.pair.2 = u.pair.2 from h', (hs u (by simp [hu])).keyword]
              exact (mem_tracked.mp hr).2
            have hcons : tracked ((t :: L).map (·.pair)) = t.pair :: tracked (L.map (·.pair)) := by
              simp [tracked, hkt]
            rw [hcons, List.map_cons, List.nodup_cons] at hd
            exact absurd (List.mem_map.mpr ⟨u.pair, hr, h'.symm⟩) hd.1
    · unfold rename
      split
      · rfl
      · rw [if_neg (by simpa [Numbered.pair] using hne)]

theorem Aligned.flatten {R : Renaming} {env env' : Env} (h : Aligned R env env') :
    ∃ L : List Numbered, R.flatten = L.map (·.pair) ∧ env.flatten = L.map (·.before) ∧
      env'.flatten = L.map (·.after) := by
  obtain ⟨T, rfl, rfl, rfl⟩ := h
  exact ⟨T.flatten, by simp [List.map_flatten], by simp [List.map_flatten],
    by simp [List.map_flatten]⟩

theorem binder_before {env : Env} {L : List Numbered} (h : env.flatten = L.map (·.before))
    (x : String) : env.binder x = (L.find? (·.1 == x)).map (·.2.2) := by
  rw [Env.binder, h, List.find?_map, Option.map_map]
  rfl

theorem binder_after {env : Env} {L : List Numbered} (h : env.flatten = L.map (·.after))
    (x : String) : env.binder x = (L.find? (·.2.1 == x)).map (·.2.2) := by
  rw [Env.binder, h, List.find?_map, Option.map_map]
  rfl

/-- **A name before and its new spelling mean the same binder**, and a name that
means none is left alone. -/
theorem spell_renamed {R : Renaming} {env env' : Env} {counter : Nat} (h : Aligned R env env')
    (hs : ∀ r ∈ R.flatten, Spelled counter r) (hd : ((tracked R.flatten).map (·.2)).Nodup)
    {x : String} (hx : Plain x) : env.spell x = env'.spell (rename R.flatten x) := by
  obtain ⟨L, hR, he, he'⟩ := h.flatten
  have hfind := @find_renamed L counter
    (fun t ht => hs _ (by rw [hR]; exact List.mem_map_of_mem ht)) (by rw [← hR]; exact hd) x hx
  rw [← hR] at hfind
  unfold Env.spell
  rw [binder_before he, binder_after he', ← hfind]
  cases hf : L.find? (·.1 == x) with
  | some t => rfl
  | none =>
    -- no local has the name, so its spelling is the name itself
    cases hk : isKeywordName x with
    | true => simp [rename, hk]
    | false =>
      rcases @rename_cases R.flatten x hk with ⟨-, hr⟩ | ⟨r, hr, hrx, -⟩
      · rw [hr]
      · rw [hR] at hr
        obtain ⟨t, ht, rfl⟩ := List.mem_map.mp (mem_tracked.mp hr).1
        have := List.find?_eq_none.mp hf t ht
        simp [Numbered.pair] at hrx
        simp [hrx] at this

/-! ## Declarations -/

theorem Aligned.push {R : Renaming} {env env' : Env} (h : Aligned R env env') :
    Aligned ([] :: R) ([] :: env) ([] :: env') := by
  obtain ⟨T, rfl, rfl, rfl⟩ := h
  exact ⟨[] :: T, rfl, rfl, rfl⟩

theorem Aligned.declare {R : Renaming} {env env' : Env} (h : Aligned R env env')
    (x y : String) (n : Nat) :
    Aligned (R.modifyHead (· ++ [(x, y)])) (env.declare x n) (env'.declare y n) := by
  obtain ⟨T, rfl, rfl, rfl⟩ := h
  refine ⟨T.modifyHead (· ++ [(x, y, n)]), ?_⟩
  cases T with
  | nil => exact ⟨rfl, rfl, rfl⟩
  | cons scope T => simp [Env.declare, Numbered.pair, Numbered.before, Numbered.after]

theorem Tracks.push {s : Desugar} {R : Renaming} (h : Tracks s R) :
    Tracks { s with scopes := [] :: s.scopes } ([] :: R) :=
  ⟨by simp [h.scopes], by simpa using h.spelled, by simpa using h.distinct⟩

theorem Tracks.pop {s : Desugar} {R : Renaming} (h : Tracks s R) :
    Tracks { s with scopes := s.scopes.tail } R.tail := by
  have hsub : R.tail.flatten.Sublist R.flatten := by
    cases R with
    | nil => exact .slnil
    | cons scope R => exact List.sublist_append_right _ _
  exact ⟨by simp [h.scopes, List.map_tail], fun r hr => h.spelled r (hsub.subset hr),
    h.distinct.sublist ((hsub.filter _).map _)⟩

theorem Tracks.counter {s s' : Desugar} {R : Renaming} (h : Tracks s R)
    (hscopes : s'.scopes = s.scopes) (hcounter : s.counter ≤ s'.counter) : Tracks s' R :=
  ⟨hscopes.trans h.scopes, fun r hr => (h.spelled r hr).mono hcounter, h.distinct⟩

/-- A spelling that no visible local has joins the innermost scope. -/
theorem Tracks.declare {s : Desugar} {R : Renaming} (h : Tracks s R) {x y : String}
    (hk : isKeywordName x = false) (hs : Spelled s.counter (x, y))
    (hnew : ∀ r ∈ tracked R.flatten, r.2 ≠ y) :
    Tracks (s.declare ⟨x, y, false, false⟩) (R.modifyHead (· ++ [(x, y)])) := by
  cases R with
  | nil => exact ⟨by simp [Desugar.declare, h.scopes], by simp, by simp⟩
  | cons scope R =>
    have hperm : List.Perm (List.flatten ((scope :: R).modifyHead (· ++ [(x, y)])))
        ((x, y) :: (scope :: R).flatten) := by
      simp
    refine ⟨?_, fun r hr => ?_, ?_⟩
    · simp [Desugar.declare, h.scopes, tracked, hk, toBinding]
    · rcases List.mem_cons.mp (hperm.mem_iff.mp hr) with rfl | hr
      · exact hs
      · exact h.spelled r hr
    · refine ((hperm.filter _).map _).nodup_iff.mpr ?_
      rw [List.filter_cons_of_pos (by simpa using hk), List.map_cons, List.nodup_cons]
      refine ⟨fun hy => ?_, h.distinct⟩
      obtain ⟨r, hr, hry⟩ := List.mem_map.mp hy
      exact hnew r hr hry

/-- The pass keeps no track of keyword spellings. -/
theorem Tracks.declareKeyword {s : Desugar} {R : Renaming} (h : Tracks s R) {x : String}
    (hk : isKeywordName x = true) : Tracks s (R.modifyHead (· ++ [(x, x)])) := by
  cases R with
  | nil => exact h
  | cons scope R =>
    have htracked : tracked (scope ++ [(x, x)]) = tracked scope := by simp [tracked, hk]
    refine ⟨?_, fun r hr => ?_, ?_⟩
    · rw [h.scopes, List.modifyHead_cons, List.map_cons, List.map_cons, htracked]
    · simp only [List.modifyHead_cons, List.flatten_cons, List.mem_append, List.mem_singleton] at hr
      rcases hr with (hr | rfl) | hr
      · exact h.spelled r (by simp [hr])
      · simp [Spelled, hk]
      · exact h.spelled r (List.mem_flatten.mpr (List.mem_flatten.mp hr |>.imp fun _ => by
          simp +contextual))
    · have htop : tracked (List.flatten ((scope :: R).modifyHead (· ++ [(x, x)]))) =
          tracked (scope :: R).flatten := by
        simp [tracked, hk]
      rw [htop]
      exact h.distinct

theorem Tracks.mem_scopes {s : Desugar} {R : Renaming} (h : Tracks s R) {r : String × String}
    (hr : r ∈ tracked R.flatten) : ∃ scope ∈ s.scopes, toBinding r ∈ scope := by
  obtain ⟨hmem, hk⟩ := mem_tracked.mp hr
  obtain ⟨scope, hscope, hmem⟩ := List.mem_flatten.mp hmem
  rw [h.scopes]
  exact ⟨_, List.mem_map_of_mem hscope, List.mem_map_of_mem (mem_tracked.mpr ⟨hmem, hk⟩)⟩

theorem emit_ne (bag : DiagBag) (severity : Severity) (code : Nat) (span : Span)
    (message : String) : emit bag severity code span message ≠ bag := by
  simp [emit]

/-- What a binder does to the scopes when the pass accepts it. -/
theorem declareNamed_tracks {s : Desugar} {R : Renaming} (h : Tracks s R) {ident : Ident}
    (hx : Plain ident.name) (hcounter : s.counter + 1 < 2 ^ 32)
    (hclean : (Desugar.declareNamed ident s).2.bag = s.bag) :
    ∃ y, (Desugar.declareNamed ident s).1 = y ∧
      (Desugar.declareNamed ident s).2.counter ≤ s.counter + 1 ∧
      Tracks (Desugar.declareNamed ident s).2 (R.modifyHead (· ++ [(ident.name, y)])) ∧
      (isKeywordName y = true ∨ ∀ r ∈ R.flatten, r.2 ≠ y) := by
  refine ⟨_, rfl, ?_⟩
  unfold Desugar.declareNamed at hclean ⊢
  split
  · next hk => exact ⟨Nat.le_succ _, h.declareKeyword hk, .inl hk⟩
  next hk =>
  rw [if_neg hk] at hclean
  simp only [Bool.not_eq_true] at hk
  have hbindings : ∀ scope ∈ s.scopes, ∀ b ∈ scope, b.preseeded = false := by
    rw [h.scopes]
    intro scope hscope b hb
    obtain ⟨sc, -, rfl⟩ := List.mem_map.mp hscope
    obtain ⟨r, -, rfl⟩ := List.mem_map.mp hb
    rfl
  split
  · next existing hfound =>
    -- an accepted binder is not in the innermost scope
    have hcur : s.current ∈ s.scopes := by
      unfold Desugar.findInnermost at hfound
      cases hs : s.scopes with
      | nil => simp [Desugar.current, hs] at hfound
      | cons scope rest => simp [Desugar.current, hs]
    have hpre := hbindings _ hcur _ (List.mem_of_find?_eq_some hfound)
    rw [hfound] at hclean
    simp only [hpre, Bool.false_eq_true, if_false] at hclean
    exact absurd hclean (emit_ne _ _ _ _ _)
  · next hnone =>
    have hfresh : ∀ {y}, isKeywordName y = false → (∀ r ∈ tracked R.flatten, r.2 ≠ y) →
        ∀ r ∈ R.flatten, r.2 ≠ y := by
      intro y hy hr r hmem heq
      have hkr := (h.spelled r hmem).keyword
      rw [heq, hy] at hkr
      exact hr r (mem_tracked.mpr ⟨hmem, hkr.symm⟩) heq
    dsimp only
    split
    · next hshadow =>
      have hne : ∀ r ∈ tracked R.flatten, r.2 ≠ ident.name := by
        intro r hr heq
        have horig := (h.spelled r (mem_tracked.mp hr).1).plain (by rw [heq]; exact hx)
        obtain ⟨scope, hscope, hb⟩ := h.mem_scopes hr
        have hb' : (toBinding r).orig = ident.name := horig.symm.trans heq
        -- neither the current scope nor an outer one has the name
        cases hs : s.scopes with
        | nil => simp [hs] at hscope
        | cons top rest =>
          rw [hs] at hscope
          rcases List.mem_cons.mp hscope with rfl | htail
          · have := List.find?_eq_none.mp hnone _ (by simpa [Desugar.current, hs] using hb)
            simp [hb'] at this
          · simp only [hs, List.tail_cons, Bool.not_eq_true', List.any_eq_false] at hshadow
            exact hshadow scope htail (List.any_eq_true.mpr ⟨_, hb, by simp [hb']⟩)
      refine ⟨Nat.le_succ _, h.declare hk ?_ hne, .inr (hfresh hk hne)⟩
      simp [Spelled, hk, hx]
    · have hk' : isKeywordName (Desugar.freshName ident.name s.counter) = false := by
        cases hf : isKeywordName (Desugar.freshName ident.name s.counter) with
        | true => exact absurd (plain_of_keyword hf) (freshName_not_plain _ _)
        | false => rfl
      have hne : ∀ r ∈ tracked R.flatten, r.2 ≠ Desugar.freshName ident.name s.counter := by
        intro r hr heq
        have hs := h.spelled r (mem_tracked.mp hr).1
        simp only [Spelled, (mem_tracked.mp hr).2, Bool.false_eq_true, if_false] at hs
        rcases hs.2 with h1 | ⟨k, hlt, h1⟩
        · exact freshName_not_plain _ _ (heq ▸ h1 ▸ hs.1)
        · have := freshName_counter hs.1 hx (h1.symm.trans heq)
          omega
      rw [Nat.mod_eq_of_lt hcounter]
      refine ⟨Nat.le_refl _, ?_, .inr (hfresh hk' hne)⟩
      have hs : Tracks { s with counter := s.counter + 1 } R := h.counter rfl (Nat.le_succ _)
      refine hs.declare hk ?_ hne
      simp only [Spelled, hk, Bool.false_eq_true, if_false]
      exact ⟨hx, .inr ⟨s.counter, Nat.lt_succ_self _, rfl⟩⟩

end Alcy.Parser
