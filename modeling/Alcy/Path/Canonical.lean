import Alcy.Path
import Mathlib.Data.List.TakeWhile

/-! # The algebra of paths

Normalization keeps the text of a stack of parts, joining runs on where the base has stopped, and
the parent of a path is the stack without its top. So every path is canonical, however it was made.
-/
namespace Alcy.Path

/-! ## Normal forms -/

/-- The parts of a text are the stack it is read from. -/
theorem stackOf_render {absolute : Bool} {stack : List Text} (h : Stack absolute stack) :
    stackOf (render absolute stack) = stack := by
  unfold stackOf
  rw [isAbsolute_render h]
  by_cases hnil : stack = []
  · subst hnil
    cases absolute <;> rfl
  · cases absolute with
    | true =>
      simp only [render, if_true, List.drop_succ_cons, List.drop_zero, splitOn_joined h hnil,
        h.replay]
    | false =>
      simp only [render, Bool.false_eq_true, if_false, hnil, splitOn_joined h hnil, h.replay]

theorem normalizeCanonical_render {absolute : Bool} {stack : List Text} (h : Stack absolute stack) :
    normalizeCanonical (render absolute stack) = render absolute stack := by
  rw [normalizeCanonical_eq, isAbsolute_render h, stackOf_render h]

/-- **Normalization is idempotent.** -/
theorem normalizeCanonical_idem (path : Text) :
    normalizeCanonical (normalizeCanonical path) = normalizeCanonical path := by
  rw [normalizeCanonical_eq path, normalizeCanonical_render (stack_stackOf path)]

/-- A character of a part is one of the text. -/
theorem mem_of_splitOn {path part : Text} (hp : part ∈ path.splitOn kDefaultPathSeparator)
    {c : Char} (hc : c ∈ part) : c ∈ path := by
  induction path generalizing part with
  | nil =>
    rw [List.splitOn_nil, List.mem_singleton] at hp
    rwa [hp] at hc
  | cons d path ih =>
    rw [List.splitOn_cons_eq_if_modifyHead] at hp
    split at hp
    · rcases List.mem_cons.1 hp with rfl | hp
      · cases hc
      · exact List.mem_cons_of_mem _ (ih hp hc)
    · obtain ⟨first, parts, hparts⟩ := List.exists_cons_of_ne_nil
        (List.splitOn_ne_nil kDefaultPathSeparator path)
      rw [hparts] at ih hp
      rcases List.mem_cons.1 hp with rfl | hp
      · rcases List.mem_cons.1 hc with rfl | hc
        · exact List.mem_cons_self ..
        · exact List.mem_cons_of_mem _ (ih (List.mem_cons_self ..) hc)
      · exact List.mem_cons_of_mem _ (ih (List.mem_cons_of_mem _ hp) hc)

/-- A stack holds the parts it was given, and `..`. -/
theorem mem_foldl_stepPart {absolute : Bool} {parts stack : List Text} {part : Text}
    (h : part ∈ parts.foldl (stepPart absolute) stack) :
    part ∈ stack ∨ part ∈ parts ∨ part = ['.', '.'] := by
  induction parts generalizing stack with
  | nil => exact .inl h
  | cons first parts ih =>
    rcases ih h with hstep | hparts | hup
    · have hcases : part ∈ stack ∨ part = first ∨ part = ['.', '.'] := by
        unfold stepPart at hstep
        split at hstep
        · exact .inl hstep
        · split at hstep
          · cases stack with
            | nil => cases absolute <;> simp_all
            | cons top below =>
              dsimp only at hstep
              split at hstep
              · exact (List.mem_cons.1 hstep).elim (fun hup => .inr (.inr hup)) .inl
              · exact .inl (List.mem_cons_of_mem _ hstep)
          · exact (List.mem_cons.1 hstep).elim (fun hfirst => .inr (.inl hfirst)) .inl
      rcases hcases with hstack | rfl | hup
      · exact .inl hstack
      · exact .inr (.inl (List.mem_cons_self ..))
      · exact .inr (.inr hup)
    · exact .inr (.inl (List.mem_cons_of_mem _ hparts))
    · exact .inr (.inr hup)

theorem mem_joined {stack : List Text} {c : Char} (h : c ∈ joined stack) :
    c = kDefaultPathSeparator ∨ ∃ part ∈ stack, c ∈ part := by
  induction stack with
  | nil => cases h
  | cons part stack ih =>
    rw [joined_cons] at h
    split at h
    · exact .inr ⟨part, List.mem_cons_self .., h⟩
    · rcases List.mem_append.1 h with hbelow | hpart
      · exact (ih hbelow).imp id fun ⟨q, hq, hc⟩ => ⟨q, List.mem_cons_of_mem _ hq, hc⟩
      · exact (List.mem_cons.1 hpart).imp id fun hc => ⟨part, List.mem_cons_self .., hc⟩

/-- Normalization makes up no characters but dots and separators. -/
theorem mem_normalizeCanonical {path : Text} {c : Char} (h : c ∈ normalizeCanonical path) :
    c = kDefaultPathSeparator ∨ c = '.' ∨ c ∈ path := by
  have hjoined (hc : c ∈ joined (stackOf path)) :
      c = kDefaultPathSeparator ∨ c = '.' ∨ c ∈ path := by
    rcases mem_joined hc with hsep | ⟨part, hpart, hc⟩
    · exact .inl hsep
    · rcases mem_foldl_stepPart hpart with hnil | hparts | rfl
      · cases hnil
      · refine .inr (.inr ?_)
        have hmem := mem_of_splitOn hparts hc
        split at hmem
        · exact List.mem_of_mem_drop hmem
        · exact hmem
      · exact .inr (.inl (by simpa using hc))
  rw [normalizeCanonical_eq] at h
  unfold render at h
  split at h
  · exact (List.mem_cons.1 h).elim .inl hjoined
  · split at h
    · exact .inr (.inl (List.mem_singleton.1 h))
    · exact hjoined h

/-! ## Joining -/

/-- A text and a child are read one after the other. -/
theorem normalizeCanonical_append {path : Text} (hne : path ≠ []) (child : Text) :
    normalizeCanonical (path ++ kDefaultPathSeparator :: child) = normalizeCanonical
      (normalizeCanonical path ++ kDefaultPathSeparator :: child) := by
  obtain ⟨c, path, rfl⟩ := List.exists_cons_of_ne_nil hne
  have habs : isAbsolute (c :: path ++ kDefaultPathSeparator :: child) = isAbsolute (c :: path) :=
    rfl
  have hrest : (if isAbsolute (c :: path) then (c :: path ++ kDefaultPathSeparator :: child).drop 1
      else c :: path ++ kDefaultPathSeparator :: child) =
      (if isAbsolute (c :: path) then (c :: path).drop 1 else c :: path) ++
        kDefaultPathSeparator :: child := by
    split <;> rfl
  rw [normalizeCanonical_eq (c :: path), normalizeCanonical_join (stack_stackOf _),
    normalizeCanonical_eq, habs, stackOf, habs, hrest, List.splitOn_append_cons_self,
    List.foldl_append]
  rfl

theorem fromNative_join {path child : Text} {p : Path} (hne : path ≠ [])
    (h : fromNative path = some p) (hchild : '\x00' ∉ child) :
    fromNative (path ++ kDefaultPathSeparator :: child) = some (p.join child) := by
  unfold fromNative at h ⊢
  split at h
  · cases h
  · next hpath =>
    cases h
    have hnul : '\x00' ∉ path ++ kDefaultPathSeparator :: child := by
      simpa [kDefaultPathSeparator] using ⟨hpath, hchild⟩
    rw [if_neg hnul]
    exact congrArg some (ext (normalizeCanonical_append hne child))

/-- What a path is joined to, it is joined to on the stack. -/
theorem join_value {absolute : Bool} {stack : List Text} (h : Stack absolute stack) {p : Path}
    (hp : p.value = render absolute stack) (child : Text) : (p.join child).value =
      render absolute ((child.splitOn kDefaultPathSeparator).foldl (stepPart absolute) stack) := by
  show normalizeCanonical (p.value ++ kDefaultPathSeparator :: child) = _
  rw [hp, normalizeCanonical_join h]

theorem join_join (p : Path) (child child' : Text) :
    (p.join child).join child' = p.join (child ++ kDefaultPathSeparator :: child') := by
  obtain ⟨absolute, stack, h, hp⟩ := exists_stack p
  refine ext ?_
  rw [join_value h hp, join_value (stack_foldl h (not_mem_splitOn child)) (join_value h hp child),
    List.splitOn_append_cons_self, List.foldl_append]

theorem fromNative_value {path : Text} {p : Path} (h : fromNative path = some p) :
    fromNative p.value = some p := by
  unfold fromNative at h ⊢
  split at h
  · cases h
  · next hnul =>
    cases h
    have hout : '\x00' ∉ (ofText path).value := by
      intro hmem
      rcases mem_normalizeCanonical hmem with h | h | h
      · exact absurd h (by decide)
      · exact absurd h (by decide)
      · exact hnul h
    rw [if_neg hout]
    exact congrArg some (ext (normalizeCanonical_idem path))

/-! ## Parents -/

/-- What `parent` makes of the string: cut at the last separator, and kept where that is the
root's. -/
def parentText (value : Text) : Text :=
  match value.reverse.dropWhile (· != kDefaultPathSeparator) with
  | [] => ['.']
  | _ :: before => if before = [] then [kDefaultPathSeparator] else before.reverse

theorem parentText_append {before part : Text} (hpart : kDefaultPathSeparator ∉ part) :
    parentText (before ++ kDefaultPathSeparator :: part) =
      if before = [] then [kDefaultPathSeparator] else before := by
  have hskip : (before ++ kDefaultPathSeparator :: part).reverse.dropWhile
      (· != kDefaultPathSeparator) = kDefaultPathSeparator :: before.reverse := by
    rw [List.reverse_append, List.reverse_cons, List.append_assoc, List.singleton_append,
      List.dropWhile_append_of_pos]
    · rw [List.dropWhile_cons_of_neg (by simp)]
    · intro c hc
      have hc : c ≠ kDefaultPathSeparator := fun h => hpart (h ▸ List.mem_reverse.1 hc)
      simpa using hc
  rw [parentText, hskip]
  simp

theorem parentText_of_not_mem {value : Text} (h : kDefaultPathSeparator ∉ value) :
    parentText value = ['.'] := by
  have hskip : value.reverse.dropWhile (· != kDefaultPathSeparator) = [] := by
    refine List.dropWhile_eq_nil_iff.2 fun c hc => ?_
    have hc : c ≠ kDefaultPathSeparator := fun he => h (he ▸ List.mem_reverse.1 hc)
    simpa using hc
  rw [parentText, hskip]

/-- **The parent is the stack without its top.** -/
theorem parentText_render {absolute : Bool} {stack : List Text} (h : Stack absolute stack) :
    parentText (render absolute stack) = render absolute stack.tail := by
  have hdot : kDefaultPathSeparator ∉ ['.'] := by decide
  cases stack with
  | nil =>
    cases absolute with
    | true => exact @parentText_append [] [] List.not_mem_nil
    | false => exact parentText_of_not_mem hdot
  | cons part stack =>
    have hpart := (h.parts part (List.mem_cons_self ..)).2.2
    by_cases hnil : stack = []
    · subst hnil
      cases absolute with
      | true => exact @parentText_append [] part hpart
      | false => exact parentText_of_not_mem hpart
    · have hbelow : joined stack ≠ [] := by
        cases h with
        | up h _ _ => exact fun he => hnil ((joined_eq_nil h).1 he)
        | name h _ => exact fun he => hnil ((joined_eq_nil h).1 he)
      have hjoined : joined (part :: stack) = joined stack ++ kDefaultPathSeparator :: part := by
        rw [joined_cons, if_neg hnil]
      cases absolute with
      | true =>
        simp only [render, if_true, hjoined, List.tail_cons, ← List.cons_append]
        rw [parentText_append hpart, if_neg (List.cons_ne_nil _ _)]
      | false =>
        simp only [render, Bool.false_eq_true, if_false, hjoined, List.tail_cons, hnil,
          List.cons_ne_nil]
        rw [parentText_append hpart, if_neg hbelow]

theorem Stack.tail {absolute : Bool} {stack : List Text} (h : Stack absolute stack) :
    Stack absolute stack.tail := by
  cases h with
  | nil => exact .nil
  | up h _ _ => exact h
  | name h _ => exact h

/-- The source cuts the string and normalizes nothing; what is left is in normal form. -/
theorem parentText_canonical (p : Path) :
    parentText p.value = normalizeCanonical (parentText p.value) := by
  obtain ⟨absolute, stack, h, hp⟩ := exists_stack p
  rw [hp, parentText_render h, normalizeCanonical_render h.tail]

/-- The path without its last segment. -/
def parent (p : Path) : Path := ⟨parentText p.value, _, parentText_canonical p⟩

/-! ## Names -/

/-- The parts of a path, the last one first. -/
def stack (p : Path) : List Text := stackOf p.value

theorem value_eq (p : Path) : p.value = render (isAbsolute p.value) p.stack := by
  obtain ⟨text, h⟩ := p.canonical
  rw [stack, h, ← normalizeCanonical_eq, normalizeCanonical_idem]

theorem stack_stack (p : Path) : Stack (isAbsolute p.value) p.stack := stack_stackOf p.value

theorem ext_stack {p q : Path} (habs : isAbsolute p.value = isAbsolute q.value)
    (hstack : p.stack = q.stack) : p = q := by
  refine ext ?_
  rw [value_eq p, value_eq q, habs, hstack]

theorem isAbsolute_join (p : Path) (child : Text) :
    isAbsolute (p.join child).value = isAbsolute p.value := by
  rw [join_value p.stack_stack p.value_eq child, isAbsolute_render]
  exact stack_foldl p.stack_stack (not_mem_splitOn child)

/-- Joining a name puts it on top. -/
theorem stack_join {name : Text} (hn : IsName name) (p : Path) :
    (p.join name).stack = name :: p.stack := by
  have hfold : (name.splitOn kDefaultPathSeparator).foldl (stepPart (isAbsolute p.value)) p.stack =
      name :: p.stack := by
    rw [List.splitOn_eq_singleton hn.2.2.2]
    simp only [List.foldl_cons, List.foldl_nil, stepPart, hn.1, hn.2.1, hn.2.2.1, or_self, if_false]
  rw [stack, join_value p.stack_stack p.value_eq, hfold, stackOf_render]
  exact .name p.stack_stack hn

theorem join_inj {name name' : Text} (hn : IsName name) (hn' : IsName name') {p q : Path}
    (h : p.join name = q.join name') : p = q ∧ name = name' := by
  have hstacks := congrArg stack h
  rw [stack_join hn, stack_join hn'] at hstacks
  obtain ⟨rfl, hstack⟩ := List.cons.inj hstacks
  have habs := congrArg (fun p => isAbsolute p.value) h
  simp only [isAbsolute_join] at habs
  exact ⟨ext_stack habs hstack, rfl⟩

/-! ## The canonical form -/

/-- What stands between the separators, behind the first one of an absolute path. -/
def segments (value : Text) : List Text :=
  (if isAbsolute value then value.drop 1 else value).splitOn kDefaultPathSeparator

/-- The form that all paths have: no empty segment and no `.`, but for the root and for `.` itself;
no separator at the end, but for the root; no `..` in an absolute path, and none behind a name. -/
structure Canonical (value : Text) : Prop where
  plain : value = ['.'] ∨ value = [kDefaultPathSeparator] ∨
    ∀ segment ∈ segments value, segment ≠ [] ∧ segment ≠ ['.']
  closed : value.getLast? = some kDefaultPathSeparator → value = [kDefaultPathSeparator]
  absolute : isAbsolute value = true → ['.', '.'] ∉ segments value
  relative : ∃ ups names, segments value = List.replicate ups ['.', '.'] ++ names ∧
    ['.', '.'] ∉ names

theorem segments_render {absolute : Bool} {stack : List Text} (h : Stack absolute stack)
    (hnil : stack ≠ []) : segments (render absolute stack) = stack.reverse := by
  unfold segments
  rw [isAbsolute_render h]
  cases absolute with
  | true => simp only [render, if_true, List.drop_succ_cons, List.drop_zero, splitOn_joined h hnil]
  | false => simp only [render, Bool.false_eq_true, if_false, hnil, splitOn_joined h hnil]

/-- The `..` of a stack are at its bottom, and there are none in an absolute one. -/
theorem Stack.ups {absolute : Bool} {stack : List Text} (h : Stack absolute stack) :
    ∃ ups names, stack = names ++ List.replicate ups ['.', '.'] ∧ ['.', '.'] ∉ names ∧
      (absolute = true → ups = 0) := by
  induction h with
  | nil => exact ⟨0, [], rfl, List.not_mem_nil, fun _ => rfl⟩
  | @up stack _ relative hups _ =>
    refine ⟨stack.length + 1, [], ?_, List.not_mem_nil, fun h => ?_⟩
    · rw [List.nil_append, List.replicate_succ]
      exact congrArg _ (List.eq_replicate_of_mem hups)
    · rw [relative] at h
      cases h
  | @name stack part _ hp ih =>
    obtain ⟨ups, names, rfl, hnames, habs⟩ := ih
    refine ⟨ups, part :: names, rfl, fun h => ?_, habs⟩
    rcases List.mem_cons.1 h with h | h
    · exact hp.2.2.1 h.symm
    · exact hnames h

/-- A text with a name in it does not end with a separator. -/
theorem getLast?_render {absolute : Bool} {stack : List Text} (h : Stack absolute stack)
    (hnil : stack ≠ []) : (render absolute stack).getLast? ≠ some kDefaultPathSeparator := by
  obtain ⟨part, below, rfl⟩ := List.exists_cons_of_ne_nil hnil
  have hpart := h.parts part (List.mem_cons_self ..)
  have hends : ∃ before, render absolute (part :: below) = before ++ part := by
    unfold render
    rw [joined_cons]
    cases absolute with
    | true =>
      by_cases hbelow : below = []
      · exact ⟨[kDefaultPathSeparator], by simp [hbelow]⟩
      · exact ⟨kDefaultPathSeparator :: (joined below ++ [kDefaultPathSeparator]), by simp [hbelow]⟩
    | false =>
      by_cases hbelow : below = []
      · exact ⟨[], by simp [hbelow]⟩
      · exact ⟨joined below ++ [kDefaultPathSeparator], by simp [hbelow]⟩
  obtain ⟨before, hbefore⟩ := hends
  rw [hbefore, List.getLast?_append_of_ne_nil _ hpart.1]
  exact fun hlast => hpart.2.2 (List.mem_of_getLast? hlast)

/-- **Every path is canonical.** -/
theorem canonical_value (p : Path) : Canonical p.value := by
  obtain ⟨absolute, stack, h, hp⟩ := exists_stack p
  rw [hp]
  by_cases hnil : stack = []
  · subst hnil
    cases absolute with
    | true =>
      exact ⟨.inr (.inl rfl), fun _ => rfl, by decide, 0, [[]], rfl, by decide⟩
    | false =>
      exact ⟨.inl rfl, by decide, by decide, 0, [['.']], rfl, by decide⟩
  · have hsegments := segments_render h hnil
    obtain ⟨ups, names, hstack, hnames, habs⟩ := h.ups
    refine ⟨.inr (.inr fun segment hmem => ?_), fun hlast => ?_, fun habsolute => ?_, ?_⟩
    · rw [hsegments] at hmem
      have := h.parts segment (List.mem_reverse.1 hmem)
      exact ⟨this.1, this.2.1⟩
    · exact absurd hlast (getLast?_render h hnil)
    · rw [isAbsolute_render h] at habsolute
      rw [hsegments, hstack, habs habsolute]
      simpa using hnames
    · refine ⟨ups, names.reverse, ?_, by simpa using hnames⟩
      rw [hsegments, hstack, List.reverse_append, List.reverse_replicate]

/-- **The algebra of paths**: reading a base and joining a child is reading both, joining is
associative, reading a path again changes nothing, and every path is canonical. -/
theorem algebra {a b c : Text} (hne : a ≠ []) (hnul : '\x00' ∉ a ++ b ++ c) (q : Path) :
    (∃ p, fromNative a = some p ∧
      fromNative (a ++ kDefaultPathSeparator :: b) = some (p.join b) ∧
      fromNative p.value = some p) ∧
    (q.join b).join c = q.join (b ++ kDefaultPathSeparator :: c) ∧ Canonical q.value := by
  simp only [List.mem_append, not_or] at hnul
  obtain ⟨⟨ha, hb⟩, -⟩ := hnul
  have hp : fromNative a = some (ofText a) := if_neg ha
  exact ⟨⟨ofText a, hp, fromNative_join hne hp hb, fromNative_value hp⟩, join_join q b c,
    canonical_value q⟩

/-- `../a/./x` with `../../b` and `c//d`, on the path of `/`. -/
theorem algebra_dots : (∃ p, fromNative "../a/./x".toList = some p ∧
      fromNative ("../a/./x".toList ++ kDefaultPathSeparator :: "../../b".toList) =
        some (p.join "../../b".toList) ∧ fromNative p.value = some p) ∧
    ((ofText ['/']).join "../../b".toList).join "c//d".toList =
      (ofText ['/']).join ("../../b".toList ++ kDefaultPathSeparator :: "c//d".toList) ∧
    Canonical (ofText ['/']).value :=
  algebra (by decide) (by decide) (ofText ['/'])

end Alcy.Path
