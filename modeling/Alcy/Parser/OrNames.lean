import Alcy.Parser.DesugarPatterns

/-! # The names of or-patterns

`visit_or` compares the alternatives of an or-pattern by the scope that each of them leaves. The
first one declares; a later one runs in a scope that already holds what the first declared, and may
only mark that as seen. An or-pattern inside it declares in a scope of its own, and what it merges
into the scope around it is compared by number, not by name.
-/
namespace Alcy.Parser
open Alcy.Ast Alcy.Diag
open Scoping (mapNames mapNamesAll mapNamesFields)
open Desugar

variable {α β γ : Type}

/-! ## The names of a pattern -/

mutual

/-- The names that a pattern binds outside its or-patterns, inside them, or both. The first
alternative stands for an or-pattern. -/
def namesIn (outside inside : Bool) : Pattern → List String
  | .wildcard _ | .literal _ _ => []
  | .ident _ name | .mutIdent _ name => if outside then [name.name] else []
  | .tuple _ _ elements => namesInAll outside inside elements
  | .struct _ _ fields => namesInFields outside inside fields
  | .ref _ _ inner => namesIn outside inside inner
  | .or _ [] => []
  | .or _ (first :: _) => if inside then namesIn true true first else []

def namesInAll (outside inside : Bool) : List Pattern → List String
  | [] => []
  | p :: rest => namesIn outside inside p ++ namesInAll outside inside rest

def namesInFields (outside inside : Bool) : List (Ident × Pattern) → List String
  | [] => []
  | (_, p) :: rest => namesIn outside inside p ++ namesInFields outside inside rest

end

/-- What a pattern binds. -/
abbrev boundNames (p : Pattern) : List String := namesIn true true p

mutual

theorem mem_boundNames (x : String) : ∀ p : Pattern,
    x ∈ boundNames p ↔ x ∈ namesIn true false p ∨ x ∈ namesIn false true p
  | .wildcard _ | .literal _ _ => by simp [namesIn]
  | .ident _ name | .mutIdent _ name => by simp [namesIn]
  | .tuple _ _ elements => by simpa [namesIn] using mem_boundNamesAll x elements
  | .struct _ _ fields => by simpa [namesIn] using mem_boundNamesFields x fields
  | .ref _ _ inner => by simpa [namesIn] using mem_boundNames x inner
  | .or _ [] => by simp [namesIn]
  | .or _ (first :: _) => by simp [namesIn]

theorem mem_boundNamesAll (x : String) : ∀ ps : List Pattern,
    x ∈ namesInAll true true ps ↔ x ∈ namesInAll true false ps ∨ x ∈ namesInAll false true ps
  | [] => by simp [namesInAll]
  | p :: rest => by
    have h := mem_boundNames x p
    have hrest := mem_boundNamesAll x rest
    simp only [namesInAll, List.mem_append]
    rw [h, hrest]
    tauto

theorem mem_boundNamesFields (x : String) : ∀ fs : List (Ident × Pattern),
    x ∈ namesInFields true true fs ↔
      x ∈ namesInFields true false fs ∨ x ∈ namesInFields false true fs
  | [] => by simp [namesInFields]
  | (_, p) :: rest => by
    have h := mem_boundNames x p
    have hrest := mem_boundNamesFields x rest
    simp only [namesInFields, List.mem_append]
    rw [h, hrest]
    tauto

end

/-! ## Scopes -/

def origs (scope : List Binding) : List String := scope.map (·.orig)

@[simp] theorem origs_nil : origs [] = [] := rfl

@[simp] theorem origs_cons (b : Binding) (scope : List Binding) :
    origs (b :: scope) = b.orig :: origs scope := rfl

@[simp] theorem origs_append (scope more : List Binding) :
    origs (scope ++ more) = origs scope ++ origs more := List.map_append

/-- The part of a scope that a later alternative begins with, or the part that was declared in it. -/
structure Part (preseeded : Bool) (scope : List Binding) : Prop where
  kind : ∀ b ∈ scope, b.preseeded = preseeded
  nodup : (origs scope).Nodup
  plain : ∀ x ∈ origs scope, isKeywordName x = false

theorem part_nil {preseeded : Bool} : Part preseeded [] := ⟨by simp, by simp, by simp⟩

/-- The binding after these names have been visited. -/
def Binding.marked (names : List String) (b : Binding) : Binding :=
  { b with seen := b.seen || names.contains b.orig }

theorem marked_nil (scope : List Binding) : scope.map (·.marked []) = scope := by
  simp [Binding.marked]

theorem marked_marked (names more : List String) (scope : List Binding) :
    (scope.map (·.marked names)).map (·.marked more) = scope.map (·.marked (names ++ more)) := by
  simp [Binding.marked, Bool.or_assoc]

theorem origs_marked (names : List String) (scope : List Binding) :
    origs (scope.map (·.marked names)) = origs scope := by
  simp [origs, Binding.marked]

theorem Part.marked {preseeded : Bool} {scope : List Binding} (h : Part preseeded scope)
    (names : List String) : Part preseeded (scope.map (·.marked names)) := by
  refine ⟨fun b hb => ?_, by rw [origs_marked]; exact h.nodup, by rw [origs_marked]; exact h.plain⟩
  obtain ⟨c, hc, rfl⟩ := List.mem_map.1 hb
  exact h.kind c hc

/-- Names that a scope does not have mark nothing. -/
theorem marked_of_not_mem {names : List String} {scope : List Binding}
    (h : ∀ x ∈ names, x ∉ origs scope) : scope.map (·.marked names) = scope := by
  rw [← marked_nil scope, List.map_map]
  refine List.map_congr_left fun b hb => ?_
  have hout : names.contains b.orig = false := by
    rw [List.contains_eq_mem, decide_eq_false_iff_not]
    exact fun hmem => h b.orig hmem (List.mem_map_of_mem hb)
  simp only [Binding.marked, Function.comp_apply, List.contains_nil, Bool.or_false, hout]

/-- A visit of a pattern with these names outside and inside its or-patterns. It marks what the scope
begins with, and declares the other names. -/
def Declares (outside inside : List String) (m : DM α) : Prop :=
  ∀ s pre new outer, s.scopes = (pre ++ new) :: outer → Part true pre → Part false new →
    ∃ new', (m s).2.scopes = (pre.map (·.marked outside) ++ new') :: outer ∧ Part false new' ∧
      ∀ x, x ∈ origs new' ↔ x ∈ origs new ∨ isKeywordName x = false ∧
        (x ∈ inside ∨ x ∈ outside ∧ x ∉ origs pre)

variable {a b c d : List String} {m : DM α} {m' : DM β}

theorem declares_pure {x : α} : Declares [] [] (pure x : DM α) := by
  intro s pre new outer hs hpre hnew
  refine ⟨new, ?_, hnew, by simp⟩
  rw [marked_nil]
  exact hs

theorem Declares.map (C : α → γ) (h : Declares a b m) : Declares a b (do return C (← m)) :=
  fun s => h s

theorem Declares.map₂ (C : α → β → γ) (h : Declares a b m) (h' : Declares c d m') :
    Declares (a ++ c) (b ++ d) (do return C (← m) (← m')) := by
  intro s pre new outer hs hpre hnew
  obtain ⟨new₁, hs₁, hnew₁, hmem₁⟩ := h s pre new outer hs hpre hnew
  obtain ⟨new₂, hs₂, hnew₂, hmem₂⟩ := h' (m s).2 _ new₁ outer hs₁ (hpre.marked a) hnew₁
  refine ⟨new₂, ?_, hnew₂, fun x => ?_⟩
  · rw [← marked_marked]
    exact hs₂
  · rw [hmem₂, hmem₁, origs_marked, List.mem_append, List.mem_append]
    tauto

/-- The binding that `find_innermost` finds first. -/
theorem find_origs (x : String) (scope : List Binding) :
    (scope.find? (·.orig == x)).isSome = true ↔ x ∈ origs scope := by
  simp [origs, List.find?_isSome]

/-- The first binding of a name is the only one. -/
theorem markSeen_marked {preseeded : Bool} {scope : List Binding} (h : Part preseeded scope)
    (x : String) (more : List Binding) (hx : x ∈ origs scope) :
    markSeen x (scope ++ more) = scope.map (·.marked [x]) ++ more := by
  induction scope with
  | nil => simp at hx
  | cons b scope ih =>
    have hnodup : b.orig ∉ origs scope ∧ (origs scope).Nodup := List.nodup_cons.1 h.nodup
    have hrest : Part preseeded scope := ⟨fun c hc => h.kind c (List.mem_cons_of_mem _ hc), hnodup.2,
      fun y hy => h.plain y (List.mem_cons_of_mem _ hy)⟩
    rw [List.cons_append, markSeen]
    by_cases hb : b.orig = x
    · have hout : ∀ y ∈ [x], y ∉ origs scope := by
        intro y hy
        rw [List.mem_singleton.1 hy, ← hb]
        exact hnodup.1
      rw [if_pos (by simp [hb]), List.map_cons, marked_of_not_mem hout]
      simp [Binding.marked, hb]
    · have hmem : x ∈ origs scope := by
        obtain he | hmem := List.mem_cons.1 hx
        · exact absurd he.symm hb
        · exact hmem
      rw [if_neg (by simp [hb]), ih hrest hmem]
      simp [Binding.marked, hb]

theorem Part.push {scope : List Binding} (h : Part false scope) {b : Binding}
    (hb : b.preseeded = false) (hx : isKeywordName b.orig = false) (hout : b.orig ∉ origs scope) :
    Part false (scope ++ [b]) := by
  refine ⟨fun c hc => ?_, ?_, fun y hy => ?_⟩
  · obtain hc | hc := List.mem_append.1 hc
    · exact h.kind c hc
    · rw [List.mem_singleton.1 hc]
      exact hb
  · rw [origs_append]
    refine List.nodup_append.2 ⟨h.nodup, List.nodup_singleton _, fun y hy z hz he => hout ?_⟩
    rw [he, List.mem_singleton.1 hz] at hy
    exact hy
  · rw [origs_append] at hy
    obtain hy | hy := List.mem_append.1 hy
    · exact h.plain y hy
    · rw [List.mem_singleton.1 hy]
      exact hx

section declareNamed
variable {s : Desugar} {pre new : List Binding} {outer : List (List Binding)} {ident : Ident}

/-- The scope began with the name. -/
theorem declareNamed_marks (hs : s.scopes = (pre ++ new) :: outer) (hpre : Part true pre)
    (hk : isKeywordName ident.name = false) (hin : ident.name ∈ origs pre) :
    (declareNamed ident s).2.scopes = (pre.map (·.marked [ident.name]) ++ new) :: outer := by
  obtain ⟨b, hb⟩ := Option.isSome_iff_exists.1 ((find_origs _ _).2 hin)
  have hfound : s.findInnermost ident.name = some b := by
    rw [findInnermost, current, hs, List.headD_cons, List.find?_append, hb, Option.some_or]
  have hrun : (declareNamed ident s).2 =
      { s with scopes := s.scopes.modifyHead (markSeen ident.name) } := by
    unfold declareNamed
    rw [if_neg (by simp [hk]), hfound]
    exact congrArg Prod.snd (if_pos (hpre.kind b (List.mem_of_find?_eq_some hb)))
  rw [hrun, hs]
  exact congrArg (· :: outer) (markSeen_marked hpre _ new hin)

/-- The name was declared in this scope already, which is reported. -/
theorem declareNamed_again (hs : s.scopes = (pre ++ new) :: outer) (hnew : Part false new)
    (hk : isKeywordName ident.name = false) (hout : ident.name ∉ origs pre)
    (hin : ident.name ∈ origs new) : (declareNamed ident s).2 =
      s.error kParserAlreadyBound ident.span (alreadyBound ident.name) := by
  obtain ⟨b, hb⟩ := Option.isSome_iff_exists.1 ((find_origs _ _).2 hin)
  have hnone : pre.find? (·.orig == ident.name) = none := by
    rw [← Option.not_isSome_iff_eq_none]
    exact fun h => hout ((find_origs _ _).1 h)
  have hfound : s.findInnermost ident.name = some b := by
    rw [findInnermost, current, hs, List.headD_cons, List.find?_append, hnone, Option.none_or, hb]
  unfold declareNamed
  rw [if_neg (by simp [hk]), hfound]
  exact congrArg Prod.snd (if_neg (by simp [hnew.kind b (List.mem_of_find?_eq_some hb)]))

/-- The scope does not have the name. -/
theorem declareNamed_new (hs : s.scopes = (pre ++ new) :: outer)
    (hk : isKeywordName ident.name = false) (hpre : ident.name ∉ origs pre)
    (hnew : ident.name ∉ origs new) : ∃ fresh, (declareNamed ident s).1 = fresh ∧
      (declareNamed ident s).2.scopes =
        (pre ++ (new ++ [⟨ident.name, fresh, false, false⟩])) :: outer := by
  have hfound : s.findInnermost ident.name = none := by
    rw [← Option.not_isSome_iff_eq_none, findInnermost, current, hs, List.headD_cons, find_origs,
      origs_append, List.mem_append, not_or]
    exact ⟨hpre, hnew⟩
  have hrun : ∃ fresh, (declareNamed ident s).1 = fresh ∧ (declareNamed ident s).2.scopes =
      s.scopes.modifyHead (· ++ [⟨ident.name, fresh, false, false⟩]) := by
    unfold declareNamed
    rw [if_neg (by simp [hk]), hfound]
    dsimp only
    split
    · exact ⟨_, rfl, rfl⟩
    · exact ⟨_, rfl, rfl⟩
  obtain ⟨fresh, hfresh, hrun⟩ := hrun
  refine ⟨fresh, hfresh, ?_⟩
  rw [hrun, hs, List.modifyHead_cons, List.append_assoc]

end declareNamed

theorem declareNamed_declares (ident : Ident) : Declares [ident.name] [] (declareNamed ident) := by
  intro s pre new outer hs hpre hnew
  by_cases hk : isKeywordName ident.name = true
  · -- a keyword is its own name
    have hrun : (declareNamed ident s).2 = s := by rw [declareNamed, if_pos hk]
    refine ⟨new, ?_, hnew, fun x => ⟨.inl, ?_⟩⟩
    · rw [hrun, hs, marked_of_not_mem fun x hx hmem => ?_]
      rw [List.mem_singleton.1 hx] at hmem
      rw [hpre.plain _ hmem] at hk
      cases hk
    · rintro (hx | ⟨hx, he | ⟨he, -⟩⟩)
      · exact hx
      · cases he
      · rw [List.mem_singleton.1 he, hk] at hx
        cases hx
  rw [Bool.not_eq_true] at hk
  by_cases hin : ident.name ∈ origs pre
  · refine ⟨new, declareNamed_marks hs hpre hk hin, hnew, fun x => ⟨.inl, ?_⟩⟩
    rintro (hx | ⟨-, he | ⟨he, hout⟩⟩)
    · exact hx
    · cases he
    · rw [List.mem_singleton.1 he] at hout
      exact absurd hin hout
  have hpre' : pre.map (·.marked [ident.name]) = pre := by
    refine marked_of_not_mem fun x hx => ?_
    rw [List.mem_singleton.1 hx]
    exact hin
  by_cases hdeclared : ident.name ∈ origs new
  · refine ⟨new, ?_, hnew, fun x => ⟨.inl, ?_⟩⟩
    · rw [declareNamed_again hs hnew hk hin hdeclared, hpre']
      exact hs
    · rintro (hx | ⟨-, he | ⟨he, -⟩⟩)
      · exact hx
      · cases he
      · rw [List.mem_singleton.1 he]
        exact hdeclared
  obtain ⟨fresh, -, hrun⟩ := declareNamed_new hs hk hin hdeclared
  refine ⟨_, by rw [hrun, hpre'], @Part.push _ hnew ⟨_, _, _, _⟩ rfl hk hdeclared, fun x => ?_⟩
  · rw [origs_append, List.mem_append, origs_cons, origs_nil, List.mem_singleton]
    constructor
    · rintro (hx | rfl)
      · exact .inl hx
      · exact .inr ⟨hk, .inr ⟨rfl, hin⟩⟩
    · rintro (hx | ⟨-, he | ⟨he, -⟩⟩)
      · exact .inl hx
      · cases he
      · exact .inr he

/-! ## Or-patterns -/

/-- Merging declares the names of the merged scope, next to what the scope began with. -/
theorem mergeScope_part (span : Span) (pre : List Binding) (outer : List (List Binding))
    (hpre : Part true pre) (inner : List Binding) : Part false inner → ∀ s new,
      s.scopes = (pre ++ new) :: outer → Part false new → ∃ new',
        (inner.foldl (mergeBinding span) s).scopes = (pre ++ new') :: outer ∧ Part false new' ∧
        ∀ x, x ∈ origs new' ↔ x ∈ origs new ∨ x ∈ origs inner := by
  induction inner with
  | nil =>
    intro _ s new hs hnew
    exact ⟨new, hs, hnew, by simp⟩
  | cons b inner ih =>
    intro hinner s new hs hnew
    have hrest : Part false inner := ⟨fun c hc => hinner.kind c (List.mem_cons_of_mem _ hc),
      (List.nodup_cons.1 hinner.nodup).2, fun y hy => hinner.plain y (List.mem_cons_of_mem _ hy)⟩
    have hb : b.preseeded = false ∧ isKeywordName b.orig = false :=
      ⟨hinner.kind b (List.mem_cons_self ..), hinner.plain b.orig (List.mem_cons_self ..)⟩
    have hclash : (s.current.any fun c => c.orig == b.orig && !c.preseeded) = true ↔
        b.orig ∈ origs new := by
      rw [current, hs, List.headD_cons, List.any_append, Bool.or_eq_true, List.any_eq_true,
        List.any_eq_true, origs, List.mem_map]
      constructor
      · rintro (⟨c, hc, h⟩ | ⟨c, hc, h⟩)
        · rw [hpre.kind c hc, Bool.not_true, Bool.and_false] at h
          cases h
        · rw [Bool.and_eq_true, beq_iff_eq] at h
          exact ⟨c, hc, h.1⟩
      · rintro ⟨c, hc, h⟩
        exact .inr ⟨c, hc, by simp [h, hnew.kind c hc]⟩
    rw [List.foldl_cons]
    by_cases hin : b.orig ∈ origs new
    · have hs' : (mergeBinding span s b).scopes = (pre ++ new) :: outer := by
        rw [mergeBinding, if_pos (hclash.2 hin)]
        exact hs
      obtain ⟨new', hs'', hnew', hmem⟩ := ih hrest _ new hs' hnew
      refine ⟨new', hs'', hnew', fun x => ?_⟩
      rw [hmem, origs_cons, List.mem_cons]
      constructor
      · rintro (hx | hx)
        · exact .inl hx
        · exact .inr (.inr hx)
      · rintro (hx | rfl | hx)
        · exact .inl hx
        · exact .inl hin
        · exact .inr hx
    · have hs' : (mergeBinding span s b).scopes = (pre ++ (new ++ [b])) :: outer := by
        rw [mergeBinding, if_neg (mt hclash.1 hin), declare, hs, List.modifyHead_cons,
          List.append_assoc]
      obtain ⟨new', hs'', hnew', hmem⟩ := ih hrest _ (new ++ [b]) hs' (hnew.push hb.1 hb.2 hin)
      refine ⟨new', hs'', hnew', fun x => ?_⟩
      rw [hmem, origs_append, List.mem_append, origs_cons, origs_nil, List.mem_singleton, origs_cons,
        List.mem_cons, or_assoc]

theorem or_declares {span : Span} {first : Pattern} {rest : List Pattern}
    (hfirst : Declares a b (visitPattern first)) :
    Declares [] (a ++ b) (visitPattern (.or span (first :: rest))) := by
  intro s pre new outer hs hpre hnew
  obtain ⟨inner, hscopes, hinner, hmem⟩ :=
    hfirst { s with scopes := [] :: s.scopes } [] [] s.scopes rfl part_nil part_nil
  obtain ⟨r, hr⟩ : ∃ r, r = visitPattern first { s with scopes := [] :: s.scopes } := ⟨_, rfl⟩
  rw [← hr] at hscopes
  have hcurrent : r.2.current = inner := by rw [current, hscopes]; rfl
  -- the later alternatives leave the scopes as they are
  have halternatives : (visitAlternatives span r.2.current rest
      { r.2 with scopes := r.2.scopes.tail }).2.scopes = (pre ++ new) :: outer := by
    rw [(visitAlternatives_settled _ rest).scopes, hscopes]
    exact hs
  obtain ⟨new', hs', hnew', hmem'⟩ :=
    mergeScope_part span pre outer hpre inner hinner _ new halternatives hnew
  refine ⟨new', ?_, hnew', fun x => ?_⟩
  · rw [marked_nil, ← hs', ← hcurrent, hr]
    rfl
  · rw [hmem', hmem, List.mem_append]
    simp only [origs_nil, List.not_mem_nil, not_false_eq_true, and_true, false_or, false_and,
      or_false]
    rw [or_comm (a := x ∈ a)]

theorem Declares.inside (h : Declares a b m) (hb : ∀ x, x ∈ b ↔ x ∈ c) : Declares a c m := by
  intro s pre new outer hs hpre hnew
  obtain ⟨new', hs', hnew', hmem⟩ := h s pre new outer hs hpre hnew
  exact ⟨new', hs', hnew', fun x => by rw [hmem, hb]⟩

mutual

theorem visitPattern_declares : ∀ p : Pattern,
    Declares (namesIn true false p) (namesIn false true p) (visitPattern p)
  | .wildcard _ | .literal _ _ => declares_pure
  | .ident _ name => ((declareNamed_declares name).map fun x => Ident.mk x name.span).map _
  | .mutIdent _ name => ((declareNamed_declares name).map fun x => Ident.mk x name.span).map _
  | .tuple _ _ elements => (visitPatterns_declares elements).map _
  | .struct _ _ fields => (visitFieldPatterns_declares fields).map _
  | .ref _ _ inner => (visitPattern_declares inner).map _
  | .or _ [] => declares_pure
  | .or _ (first :: _) => (or_declares (visitPattern_declares first)).inside fun x => by
      rw [namesIn, if_pos rfl, mem_boundNames, List.mem_append]

theorem visitPatterns_declares : ∀ ps : List Pattern,
    Declares (namesInAll true false ps) (namesInAll false true ps) (visitPatterns ps)
  | [] => declares_pure
  | p :: rest => (visitPattern_declares p).map₂ _ (visitPatterns_declares rest)

theorem visitFieldPatterns_declares : ∀ fs : List (Ident × Pattern),
    Declares (namesInFields true false fs) (namesInFields false true fs) (visitFieldPatterns fs)
  | [] => declares_pure
  | (name, p) :: rest =>
    (visitPattern_declares p).map₂ (fun p rest => (name, p) :: rest)
      (visitFieldPatterns_declares rest)

end

/-- What the first alternative leaves: the names that it binds, keywords apart. -/
theorem first_declares (first : Pattern) (s : Desugar) :
    ∃ bound, (visitPattern first { s with scopes := [] :: s.scopes }).2.scopes =
      bound :: s.scopes ∧ Part false bound ∧
      ∀ x, x ∈ origs bound ↔ isKeywordName x = false ∧ x ∈ boundNames first := by
  obtain ⟨bound, hs, hbound, hmem⟩ := visitPattern_declares first
    { s with scopes := [] :: s.scopes } [] [] s.scopes rfl part_nil part_nil
  refine ⟨bound, hs, hbound, fun x => ?_⟩
  rw [hmem, mem_boundNames]
  simp only [origs_nil, List.not_mem_nil, not_false_eq_true, and_true, false_or]
  rw [or_comm]

/-! ## The report -/

/-- The binders inside the or-patterns of a pattern. -/
def BindsInside (p : Pattern) : Prop := ∃ x ∈ namesIn false true p, isKeywordName x = false

/-- Two patterns that bind the same names, keywords apart. -/
def SamePlain (p q : Pattern) : Prop :=
  ∀ x, isKeywordName x = false → (x ∈ boundNames p ↔ x ∈ boundNames q)

/-- The state after a later alternative, before the check. -/
def alternativeVisited (bound : List Binding) (p : Pattern) (s : Desugar) : Desugar :=
  (visitPattern p { s with scopes := preseed bound :: s.scopes }).2

/-- The state after a later alternative. -/
def alternativeLeft (span : Span) (bound : List Binding) (p : Pattern) (s : Desugar) : Desugar :=
  let checked := (checkAlternative span bound (alternativeVisited bound p s)).2
  { checked with scopes := checked.scopes.tail }

theorem visitAlternatives_cons (span : Span) (bound : List Binding) (p : Pattern)
    (rest : List Pattern) (s : Desugar) :
    (visitAlternatives span bound (p :: rest) s).2 =
      (visitAlternatives span bound rest (alternativeLeft span bound p s)).2 := rfl

/-- Some check of `visitAlternatives` adds to the bag. -/
def alternativesReport (span : Span) (bound : List Binding) : List Pattern → Desugar → Prop
  | [], _ => False
  | p :: rest, s =>
    (checkAlternative span bound (alternativeVisited bound p s)).2.bag ≠
        (alternativeVisited bound p s).bag ∨
      alternativesReport span bound rest (alternativeLeft span bound p s)

/-- `visit_or` reports its own alternatives. -/
def orReports (span : Span) (first : Pattern) (rest : List Pattern) (s : Desugar) : Prop :=
  let visited := (visitPattern first { s with scopes := [] :: s.scopes }).2
  alternativesReport span visited.current rest { visited with scopes := visited.scopes.tail }

theorem checkAlternative_reports (span : Span) (bound : List Binding) (s : Desugar) :
    (checkAlternative span bound s).2.bag ≠ s.bag ↔
      s.current.length ≠ bound.length ∨ ∃ b ∈ s.current, b.preseeded = true ∧ b.seen = false := by
  have hcond : (s.current.length != bound.length ||
      s.current.any fun b => b.preseeded && !b.seen) = true ↔
      s.current.length ≠ bound.length ∨ ∃ b ∈ s.current, b.preseeded = true ∧ b.seen = false := by
    simp
  rw [← hcond]
  by_cases h : (s.current.length != bound.length ||
      s.current.any fun b => b.preseeded && !b.seen) = true
  · have hrun : (checkAlternative span bound s).2 = s.error kParserOrPatternMismatch span
        "or-pattern alternatives must bind the same names" := if_pos h
    rw [hrun]
    exact ⟨fun _ => h, fun _ => emit_ne _ _ _ _ _⟩
  · have hrun : (checkAlternative span bound s).2 = s := if_neg h
    rw [hrun]
    exact ⟨fun hne => absurd rfl hne, fun hcond => absurd hcond h⟩

theorem preseed_origs (bound : List Binding) : origs (preseed bound) = origs bound := by
  simp [origs, preseed]

theorem Part.preseed {bound : List Binding} (h : Part false bound) : Part true (preseed bound) := by
  refine ⟨fun c hc => ?_, by rw [preseed_origs]; exact h.nodup, by rw [preseed_origs]; exact h.plain⟩
  obtain ⟨b, -, rfl⟩ := List.mem_map.1 hc
  rfl

/-- A name that was marked is seen, and what was just begun is not. -/
theorem marked_unseen (names : List String) (bound : List Binding) :
    (∃ b ∈ (preseed bound).map (·.marked names), b.preseeded = true ∧ b.seen = false) ↔
      ∃ x ∈ origs bound, x ∉ names := by
  constructor
  · rintro ⟨b, hb, -, hseen⟩
    obtain ⟨c, hc, rfl⟩ := List.mem_map.1 hb
    obtain ⟨d, hd, rfl⟩ := List.mem_map.1 hc
    refine ⟨d.orig, List.mem_map_of_mem hd, ?_⟩
    simpa [Binding.marked] using hseen
  · rintro ⟨x, hx, hout⟩
    obtain ⟨d, hd, rfl⟩ := List.mem_map.1 hx
    refine ⟨_, List.mem_map_of_mem (List.mem_map_of_mem hd), rfl, ?_⟩
    simpa [Binding.marked] using hout

/-- **What the check of a later alternative reports.** -/
theorem alternative_reports (span : Span) {bound : List Binding} (hbound : Part false bound)
    (p : Pattern) (s : Desugar) :
    (checkAlternative span bound (alternativeVisited bound p s)).2.bag ≠
        (alternativeVisited bound p s).bag ↔
      BindsInside p ∨
        ¬ ∀ x, isKeywordName x = false → (x ∈ origs bound ↔ x ∈ boundNames p) := by
  obtain ⟨new, hs, hnew, hmem⟩ := visitPattern_declares p
    { s with scopes := preseed bound :: s.scopes } (preseed bound) [] s.scopes (by simp)
    hbound.preseed part_nil
  have hcurrent : (alternativeVisited bound p s).current =
      (preseed bound).map (·.marked (namesIn true false p)) ++ new := by
    rw [alternativeVisited, current, hs, List.headD_cons]
  -- the scope has grown if something new was declared
  have hlength : (alternativeVisited bound p s).current.length ≠ bound.length ↔
      ∃ x, isKeywordName x = false ∧
        (x ∈ namesIn false true p ∨ x ∈ namesIn true false p ∧ x ∉ origs bound) := by
    rw [hcurrent, List.length_append, List.length_map, preseed, List.length_map, ne_eq,
      Nat.add_eq_left, List.length_eq_zero_iff]
    constructor
    · intro hne
      obtain ⟨b, rest, rfl⟩ := List.exists_cons_of_ne_nil hne
      have hb := (hmem b.orig).1 (by simp)
      rw [preseed_origs] at hb
      obtain hb | hb := hb
      · cases hb
      · exact ⟨b.orig, hb⟩
    · rintro ⟨x, hx⟩ he
      have := (hmem x).2 (.inr (by rw [preseed_origs]; exact hx))
      rw [he] at this
      cases this
  have hunseen : (∃ b ∈ (alternativeVisited bound p s).current,
      b.preseeded = true ∧ b.seen = false) ↔ ∃ x ∈ origs bound, x ∉ namesIn true false p := by
    rw [← marked_unseen, hcurrent]
    constructor
    · rintro ⟨b, hb, hkind, hseen⟩
      obtain hb | hb := List.mem_append.1 hb
      · exact ⟨b, hb, hkind, hseen⟩
      · rw [hnew.kind b hb] at hkind
        cases hkind
    · rintro ⟨b, hb, h⟩
      exact ⟨b, List.mem_append_left _ hb, h⟩
  rw [checkAlternative_reports, hlength, hunseen]
  constructor
  · rintro (⟨x, hx, hin | ⟨hin, hout⟩⟩ | ⟨x, hx, hout⟩)
    · exact .inl ⟨x, hin, hx⟩
    · exact .inr fun hall => hout ((hall x hx).2 ((mem_boundNames x p).2 (.inl hin)))
    · by_cases hin : x ∈ namesIn false true p
      · exact .inl ⟨x, hin, hbound.plain x hx⟩
      · refine .inr fun hall => ?_
        obtain h | h := (mem_boundNames x p).1 ((hall x (hbound.plain x hx)).1 hx)
        · exact hout h
        · exact hin h
  · rintro (⟨x, hin, hx⟩ | hne)
    · exact .inl ⟨x, hx, .inl hin⟩
    · push Not at hne
      obtain ⟨x, hx, ⟨hin, hout⟩ | ⟨hout, hin⟩⟩ := hne
      · exact .inr ⟨x, hin, fun h => hout ((mem_boundNames x p).2 (.inl h))⟩
      · obtain h | h := (mem_boundNames x p).1 hin
        · exact .inl ⟨x, hx, .inr ⟨h, hout⟩⟩
        · exact .inl ⟨x, hx, .inl h⟩

theorem alternativesReport_iff (span : Span) {bound : List Binding} (hbound : Part false bound)
    (rest : List Pattern) : ∀ s, alternativesReport span bound rest s ↔ ∃ p ∈ rest,
      BindsInside p ∨
        ¬ ∀ x, isKeywordName x = false → (x ∈ origs bound ↔ x ∈ boundNames p) := by
  induction rest with
  | nil => simp [alternativesReport]
  | cons p rest ih =>
    intro s
    rw [alternativesReport, alternative_reports span hbound, ih, List.exists_mem_cons_iff]

/-- **When `visit_or` reports.** A later alternative has an or-pattern that binds, or does not bind
what the first one binds. -/
theorem orReports_iff (span : Span) (first : Pattern) (rest : List Pattern) (s : Desugar) :
    orReports span first rest s ↔ ∃ p ∈ rest, BindsInside p ∨ ¬ SamePlain first p := by
  obtain ⟨bound, hs, hbound, hmem⟩ := first_declares first s
  have hcurrent : (visitPattern first { s with scopes := [] :: s.scopes }).2.current = bound := by
    rw [current, hs, List.headD_cons]
  have hsame : ∀ p, (∀ x, isKeywordName x = false → (x ∈ origs bound ↔ x ∈ boundNames p)) ↔
      SamePlain first p := by
    intro p
    refine forall_congr' fun x => imp_congr_right fun hx => ?_
    rw [hmem, and_iff_right hx]
  rw [orReports, hcurrent, alternativesReport_iff span hbound]
  simp only [hsame]

/-! ## The spelling -/

theorem renameIn_left {scope : List Binding} {x : String} (more : List Binding)
    (hx : Found scope x) : renameIn (scope ++ more) x = renameIn scope x := by
  unfold renameIn
  obtain hk | ⟨b, hb, rfl⟩ := hx
  · rw [if_pos hk, if_pos hk]
  · obtain ⟨c, hc⟩ := Option.isSome_iff_exists.1
      ((find_origs b.orig scope).2 (List.mem_map_of_mem hb))
    rw [List.find?_append, hc, Option.some_or]

theorem renameIn_right {scope more : List Binding} {x : String} (hx : x ∉ origs scope) :
    renameIn (scope ++ more) x = renameIn more x := by
  have hnone : scope.find? (·.orig == x) = none := by
    rw [← Option.not_isSome_iff_eq_none]
    exact fun h => hx ((find_origs _ _).1 h)
  unfold renameIn
  rw [List.find?_append, hnone, Option.none_or]

/-- A visit that declares every name once. Where it adds no diagnostic, the names are spelled as the
scope that it leaves spells them. -/
structure Spells (names : List String) (f : (String → String) → α) (m : DM α) : Prop where
  grows : Grows m
  congr : ∀ g g', (∀ x ∈ names, g x = g' x) → f g = f g'
  run : ∀ s new outer, s.scopes = new :: outer → Part false new → (m s).2.bag = s.bag →
    ∃ more, (m s).2.scopes = (new ++ more) :: outer ∧ Part false (new ++ more) ∧
      (∀ x ∈ names, Found (new ++ more) x) ∧ (m s).1 = f (renameIn (new ++ more))

theorem spells_pure {x : α} {f : (String → String) → α} (h : ∀ g, f g = x) :
    Spells [] f (pure x : DM α) := by
  refine ⟨grows_pure, fun g g' _ => by rw [h, h], fun s new outer hs hnew _ => ⟨[], ?_⟩⟩
  rw [List.append_nil]
  exact ⟨hs, hnew, by simp, (h _).symm⟩

section
variable {f : (String → String) → α} {f' : (String → String) → β}

theorem Spells.map (C : α → γ) (h : Spells a f m) :
    Spells a (fun g => C (f g)) (do return C (← m)) := by
  refine ⟨h.grows.bind fun _ => grows_pure, fun g g' hg => by rw [h.congr g g' hg], ?_⟩
  intro s new outer hs hnew hclean
  obtain ⟨more, hscopes, hpart, hfound, he⟩ := h.run s new outer hs hnew hclean
  exact ⟨more, hscopes, hpart, hfound, congrArg C he⟩

theorem Spells.map₂ (C : α → β → γ) (h : Spells a f m) (h' : Spells b f' m') :
    Spells (a ++ b) (fun g => C (f g) (f' g)) (do return C (← m) (← m')) := by
  have hgrows : ∀ x, Grows (do return C x (← m')) := fun x => h'.grows.bind fun _ => grows_pure
  refine ⟨h.grows.bind hgrows, fun g g' hg => ?_, fun s new outer hs hnew hclean => ?_⟩
  · rw [h.congr g g' fun x hx => hg x (List.mem_append_left _ hx),
      h'.congr g g' fun x hx => hg x (List.mem_append_right _ hx)]
  obtain ⟨hclean₁, hclean₂⟩ := h.grows.split hgrows hclean
  obtain ⟨more₁, hs₁, hpart₁, hfound₁, he₁⟩ := h.run s new outer hs hnew hclean₁
  obtain ⟨more₂, hs₂, hpart₂, hfound₂, he₂⟩ := h'.run (m s).2 _ outer hs₁ hpart₁ hclean₂
  rw [List.append_assoc] at hs₂ hpart₂ hfound₂ he₂
  refine ⟨more₁ ++ more₂, hs₂, hpart₂, fun x hx => ?_, ?_⟩
  · obtain hx | hx := List.mem_append.1 hx
    · obtain hk | ⟨c, hc, hcx⟩ := hfound₁ x hx
      · exact .inl hk
      · refine .inr ⟨c, ?_, hcx⟩
        rw [← List.append_assoc]
        exact List.mem_append_left _ hc
    · exact hfound₂ x hx
  · have hkeep : f (renameIn (new ++ more₁)) = f (renameIn (new ++ (more₁ ++ more₂))) := by
      refine h.congr _ _ fun x hx => ?_
      rw [← List.append_assoc, renameIn_left _ (hfound₁ x hx)]
    show C (m s).1 (m' (m s).2).1 = _
    rw [he₁, he₂, hkeep]

end

theorem declareNamed_spells (ident : Ident) :
    Spells [ident.name] (fun g => g ident.name) (declareNamed ident) := by
  refine ⟨(declareNamed_steady ident).grows, fun g g' hg => hg _ (List.mem_singleton.2 rfl), ?_⟩
  intro s new outer hs hnew hclean
  by_cases hk : isKeywordName ident.name = true
  · have hrun : declareNamed ident s = (ident.name, s) := by rw [declareNamed, if_pos hk]
    refine ⟨[], ?_⟩
    rw [hrun, List.append_nil]
    refine ⟨hs, hnew, fun x hx => ?_, ?_⟩
    · rw [List.mem_singleton.1 hx]
      exact .inl hk
    · rw [renameIn, if_pos hk]
  rw [Bool.not_eq_true] at hk
  by_cases hin : ident.name ∈ origs new
  · rw [@declareNamed_again s [] new outer ident hs hnew hk (by simp) hin] at hclean
    exact absurd hclean (emit_ne _ _ _ _ _)
  obtain ⟨fresh, hfresh, hs'⟩ := @declareNamed_new s [] new outer ident hs hk (by simp) hin
  refine ⟨_, hs', @Part.push _ hnew ⟨_, _, _, _⟩ rfl hk hin, fun x hx => ?_, ?_⟩
  · rw [List.mem_singleton.1 hx]
    exact .inr ⟨_, List.mem_append_right _ (List.mem_singleton.2 rfl), rfl⟩
  · rw [hfresh, renameIn_right hin]
    simp [renameIn, hk]

/-- An accepted visit of an or-pattern spells all alternatives by the scope of the first one. -/
theorem or_spelling {span : Span} {first : Pattern} {rest : List Pattern}
    (hfirst : Spells (binders first) (fun g => mapNames g first) (visitPattern first))
    {s : Desugar} (hclean : (visitPattern (.or span (first :: rest)) s).2.bag = s.bag) :
    ∃ scope, (visitPattern (.or span (first :: rest)) s).2.scopes =
        s.scopes.modifyHead (· ++ scope) ∧
      (∀ x ∈ binders (.or span (first :: rest)), Found scope x) ∧
      (visitPattern (.or span (first :: rest)) s).1 =
        mapNames (renameIn scope) (.or span (first :: rest)) := by
  obtain ⟨hclean₁, he, hfound, hscopes, -⟩ := (or_visit (visitPattern_steady first)
    (fun bound => visitAlternatives_settled bound rest) s rfl rfl).2.2 hclean
  obtain ⟨scope, hs₁, -, hfound₁, he₁⟩ :=
    hfirst.run { s with scopes := [] :: s.scopes } [] s.scopes rfl part_nil hclean₁
  rw [List.nil_append] at hs₁ hfound₁ he₁
  have hcurrent : (visitPattern first { s with scopes := [] :: s.scopes }).2.current = scope := by
    rw [current, hs₁, List.headD_cons]
  rw [hcurrent] at hscopes hfound he
  refine ⟨scope, hscopes, fun x hx => ?_, by rw [he, he₁]; rfl⟩
  obtain hx | hx := List.mem_append.1 hx
  · exact hfound₁ x hx
  · exact hfound x hx

theorem or_spells {span : Span} {first : Pattern} {rest : List Pattern}
    (hfirst : Spells (binders first) (fun g => mapNames g first) (visitPattern first)) :
    Spells (binders (.or span (first :: rest))) (fun g => mapNames g (.or span (first :: rest)))
      (visitPattern (.or span (first :: rest))) := by
  refine ⟨(visitPattern_steady _).grows, fun g g' hg => mapNames_congr _ hg, ?_⟩
  intro s new outer hs hnew hclean
  obtain ⟨scope, hscopes, hfound, he⟩ := or_spelling hfirst hclean
  have hscopes' : (visitPattern (.or span (first :: rest)) s).2.scopes =
      (new ++ scope) :: outer := by rw [hscopes, hs, List.modifyHead_cons]
  -- what was merged clashes with nothing that was there
  have hpart : Part false (new ++ scope) := by
    obtain ⟨new', hs', hnew', -⟩ := visitPattern_declares _ s [] new outer hs part_nil hnew
    rw [hscopes'] at hs'
    rw [(List.cons.inj hs').1]
    exact hnew'
  refine ⟨scope, hscopes', hpart, fun x hx => ?_, ?_⟩
  · obtain hk | ⟨b, hb, hbx⟩ := hfound x hx
    · exact .inl hk
    · exact .inr ⟨b, List.mem_append_right _ hb, hbx⟩
  · rw [he]
    refine mapNames_congr _ fun x hx => ?_
    obtain hk | ⟨b, hb, rfl⟩ := hfound x hx
    · rw [renameIn, renameIn, if_pos hk, if_pos hk]
    · refine (renameIn_right fun hin => ?_).symm
      have hnodup := hpart.nodup
      rw [origs_append] at hnodup
      exact List.disjoint_of_nodup_append hnodup hin (List.mem_map_of_mem hb)

mutual

theorem visitPattern_spells : ∀ p : Pattern,
    Spells (binders p) (fun g => mapNames g p) (visitPattern p)
  | .wildcard _ => spells_pure fun _ => rfl
  | .literal _ _ => spells_pure fun _ => rfl
  | .ident _ name => ((declareNamed_spells name).map fun x => Ident.mk x name.span).map _
  | .mutIdent _ name => ((declareNamed_spells name).map fun x => Ident.mk x name.span).map _
  | .tuple _ _ elements => (visitPatterns_spells elements).map _
  | .struct _ _ fields => (visitFieldPatterns_spells fields).map _
  | .ref _ _ inner => (visitPattern_spells inner).map _
  | .or _ [] => spells_pure fun _ => rfl
  | .or _ (first :: _) => or_spells (visitPattern_spells first)

theorem visitPatterns_spells : ∀ ps : List Pattern,
    Spells (bindersAll ps) (fun g => mapNamesAll g ps) (visitPatterns ps)
  | [] => spells_pure fun _ => rfl
  | p :: rest => (visitPattern_spells p).map₂ _ (visitPatterns_spells rest)

theorem visitFieldPatterns_spells : ∀ fs : List (Ident × Pattern),
    Spells (bindersFields fs) (fun g => mapNamesFields g fs) (visitFieldPatterns fs)
  | [] => spells_pure fun _ => rfl
  | (name, p) :: rest =>
    (visitPattern_spells p).map₂ (fun p rest => (name, p) :: rest) (visitFieldPatterns_spells rest)

end

/-! ## The whole or-pattern -/

/-- Two alternatives bind different names. -/
def Differ (alternatives : List Pattern) : Prop :=
  ∃ p ∈ alternatives, ∃ q ∈ alternatives, ¬ ∀ x, x ∈ boundNames p ↔ x ∈ boundNames q

/-- The report of `visit_or` is about the names that the alternatives bind, and where it adds no
diagnostic the alternatives spell each name the same way. -/
def ComparesExactly (span : Span) (first : Pattern) (rest : List Pattern) (s : Desugar) : Prop :=
  (orReports span first rest s ↔ Differ (first :: rest)) ∧
    ((visitPattern (.or span (first :: rest)) s).2.bag = s.bag → ∃ spelling,
      (visitPattern (.or span (first :: rest)) s).1 =
        .or span (mapNamesAll spelling (first :: rest)))

/-- **When or-patterns are compared exactly.** An or-pattern that binds, inside a later alternative,
always makes the code report; a keyword never does. -/
theorem comparesExactly_iff (span : Span) (first : Pattern) (rest : List Pattern) (s : Desugar) :
    ComparesExactly span first rest s ↔
      ((∃ p ∈ rest, BindsInside p) → Differ (first :: rest)) ∧
        (Differ (first :: rest) → (∃ p ∈ rest, BindsInside p) ∨ ∃ p ∈ rest, ¬ SamePlain first p) := by
  have hspelling := fun hclean => (@or_spelling span first rest (visitPattern_spells first) s hclean)
  have hplain : (∃ p ∈ rest, ¬ SamePlain first p) → Differ (first :: rest) := by
    rintro ⟨p, hp, hne⟩
    exact ⟨first, List.mem_cons_self .., p, List.mem_cons_of_mem _ hp,
      fun hall => hne fun x _ => hall x⟩
  have hreports : orReports span first rest s ↔
      (∃ p ∈ rest, BindsInside p) ∨ ∃ p ∈ rest, ¬ SamePlain first p := by
    rw [orReports_iff]
    simp only [and_or_left, exists_or]
  rw [ComparesExactly, hreports]
  constructor
  · rintro ⟨h, -⟩
    exact ⟨fun hin => h.1 (.inl hin), h.2⟩
  · rintro ⟨hin, hdiffer⟩
    refine ⟨⟨?_, hdiffer⟩, fun hclean => ?_⟩
    · rintro (h | h)
      · exact hin h
      · exact hplain h
    · obtain ⟨scope, -, -, he⟩ := hspelling hclean
      exact ⟨renameIn scope, he⟩

/-- `A(…)` -/
def payloadOf (variant : String) (element : Pattern) : Pattern :=
  .tuple default (some ⟨[⟨variant, default⟩], default⟩) [element]

def bindX : Pattern := .ident default ⟨"x", default⟩

/-- `B((C(x) | D(x)))` -/
def nestedAlternative : Pattern :=
  payloadOf "B" (.or default [payloadOf "C" bindX, payloadOf "D" bindX])

/-- In `A(x) | B((C(x) | D(x)))` every alternative binds `x`, and a mismatch is reported. -/
theorem nestedAlternative_reported :
    ¬ ComparesExactly default (payloadOf "A" bindX) [nestedAlternative] ⟨0, [[]], []⟩ := by
  rintro ⟨h, -⟩
  have hinside : BindsInside nestedAlternative := ⟨"x", by decide, by decide⟩
  obtain ⟨p, hp, q, hq, hne⟩ := h.1 ((orReports_iff _ _ _ _).2 ⟨_, by simp, .inl hinside⟩)
  have hnames : ∀ r ∈ [payloadOf "A" bindX, nestedAlternative], boundNames r = ["x"] := by
    intro r hr
    obtain rfl | hr := List.mem_cons.1 hr
    · rfl
    · rw [List.mem_singleton.1 hr]
      rfl
  exact hne fun x => by rw [hnames p hp, hnames q hq]

end Alcy.Parser
