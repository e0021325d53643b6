import Mathlib.Data.List.Basic

/-! # Paths

`path::Path` as a POSIX build has it. A path is normalized where it is made, so two spellings of one
lexical path are one value. The source edits one string in place and keeps the places where its
names start; what it computes is a stack of parts (`normalizeCanonical_eq`).
-/
namespace Alcy.Path

abbrev Text := List Char

def kDefaultPathSeparator : Char := '/'

/-- Where the next part is appended. -/
def separated (out : Text) : Text := if out.isEmpty then out else out ++ [kDefaultPathSeparator]

/-- One round of the loop of `normalize_canonical`: the string so far, and the stack of the places
where its names start. -/
def normalizePart (absolute : Bool) : Text × List Nat → Text → Text × List Nat
  | (out, starts), part =>
    if part = [] ∨ part = ['.'] then (out, starts)
    else if part = ['.', '.'] then
      match starts with
      | start :: starts => (out.take start, starts)
      | [] => if absolute then (out, []) else (separated out ++ ['.', '.'], [])
    else (separated out ++ part, out.length :: starts)

def isAbsolute (path : Text) : Bool := path.head? == some kDefaultPathSeparator

def normalizeCanonical (path : Text) : Text :=
  let absolute := isAbsolute path
  let rest := if absolute then path.drop 1 else path
  let out := ((rest.splitOn kDefaultPathSeparator).foldl (normalizePart absolute) ([], [])).1
  if absolute then kDefaultPathSeparator :: out
  else if out.isEmpty then ['.'] else out

end Alcy.Path

namespace Alcy

open Path in
/-- `path::Path`: a string that normalization made. -/
structure Path where
  value : Text
  canonical : ∃ text, value = normalizeCanonical text

namespace Path

instance : DecidableEq Path := fun p q =>
  decidable_of_iff (p.value = q.value) ⟨fun h => by cases p; cases q; cases h; rfl, congrArg _⟩

theorem ext {p q : Path} (h : p.value = q.value) : p = q := by
  cases p; cases q; cases h; rfl

def ofText (text : Text) : Path := ⟨normalizeCanonical text, text, rfl⟩

/-- Fails only on embedded NUL bytes. -/
def fromNative (text : Text) : Option Path :=
  if '\x00' ∈ text then none else some (ofText text)

def join (p : Path) (child : Text) : Path :=
  ofText (p.value ++ kDefaultPathSeparator :: child)

/-! ## The stack of parts -/

/-- A part that names something. -/
def IsName (part : Text) : Prop :=
  part ≠ [] ∧ part ≠ ['.'] ∧ part ≠ ['.', '.'] ∧ kDefaultPathSeparator ∉ part

/-- One part of a path, on the stack of the parts before it, the last one first. -/
def stepPart (absolute : Bool) (stack : List Text) (part : Text) : List Text :=
  if part = [] ∨ part = ['.'] then stack
  else if part = ['.', '.'] then
    match stack with
    | [] => if absolute then [] else [['.', '.']]
    | top :: below => if top = ['.', '.'] then ['.', '.'] :: stack else below
  else part :: stack

/-- The stacks that normalization reaches: names over the `..` that lead out of a relative base. -/
inductive Stack (absolute : Bool) : List Text → Prop
  | nil : Stack absolute []
  | up {stack : List Text} (h : Stack absolute stack) (relative : absolute = false)
      (ups : ∀ part ∈ stack, part = ['.', '.']) : Stack absolute (['.', '.'] :: stack)
  | name {stack : List Text} {part : Text} (h : Stack absolute stack) (hp : IsName part) :
      Stack absolute (part :: stack)

theorem Stack.step {absolute : Bool} {stack : List Text} (h : Stack absolute stack) {part : Text}
    (hp : kDefaultPathSeparator ∉ part) : Stack absolute (stepPart absolute stack part) := by
  unfold stepPart
  split
  · exact h
  · next hskip =>
    split
    · next hup =>
      cases h with
      | nil =>
        cases absolute with
        | true => exact .nil
        | false => exact .up .nil rfl nofun
      | up h' relative ups =>
        simp only [if_true]
        exact .up (.up h' relative ups) relative (by simpa using ups)
      | name h' hname => simpa [hname.2.2.1] using h'
    · next hup =>
      push Not at hskip
      exact .name h ⟨hskip.1, hskip.2, hup, hp⟩

theorem stack_foldl {absolute : Bool} {stack : List Text} (h : Stack absolute stack)
    {parts : List Text} (hp : ∀ part ∈ parts, kDefaultPathSeparator ∉ part) :
    Stack absolute (parts.foldl (stepPart absolute) stack) := by
  induction parts generalizing stack with
  | nil => exact h
  | cons part parts ih =>
    exact ih (h.step (hp part (List.mem_cons_self ..))) fun q hq => hp q (.tail _ hq)

/-- A part is not empty and holds no separator. -/
theorem Stack.parts {absolute : Bool} {stack : List Text} (h : Stack absolute stack) :
    ∀ part ∈ stack, part ≠ [] ∧ part ≠ ['.'] ∧ kDefaultPathSeparator ∉ part := by
  induction h with
  | nil => exact nofun
  | up h _ _ ih => exact List.forall_mem_cons.2 ⟨by decide, ih⟩
  | name h hp ih => exact List.forall_mem_cons.2 ⟨⟨hp.1, hp.2.1, hp.2.2.2⟩, ih⟩

/-- Running the parts of a stack builds it again. -/
theorem Stack.replay {absolute : Bool} {stack : List Text} (h : Stack absolute stack) :
    stack.reverse.foldl (stepPart absolute) [] = stack := by
  induction h with
  | nil => rfl
  | @up stack h relative ups ih =>
    rw [List.reverse_cons, List.foldl_append, ih]
    subst relative
    cases stack with
    | nil => rfl
    | cons top below =>
      have := ups top (List.mem_cons_self ..)
      simp [stepPart, this]
  | name h hp ih =>
    rw [List.reverse_cons, List.foldl_append, ih]
    simp [stepPart, hp.1, hp.2.1, hp.2.2.1]

/-! ## The string of a stack -/

/-- The string the loop holds for a stack. -/
def joined : List Text → Text
  | [] => []
  | [part] => part
  | part :: stack => joined stack ++ kDefaultPathSeparator :: part

def render (absolute : Bool) (stack : List Text) : Text :=
  if absolute then kDefaultPathSeparator :: joined stack
  else if stack = [] then ['.'] else joined stack

/-- The stack that a text's parts build. -/
def stackOf (path : Text) : List Text :=
  ((if isAbsolute path then path.drop 1 else path).splitOn kDefaultPathSeparator).foldl
    (stepPart (isAbsolute path)) []

theorem not_mem_splitOn (path : Text) : ∀ part ∈ path.splitOn kDefaultPathSeparator,
    kDefaultPathSeparator ∉ part := by
  induction path with
  | nil => simp [List.splitOn_nil]
  | cons c path ih =>
    rw [List.splitOn_cons_eq_if_modifyHead]
    split
    · exact List.forall_mem_cons.2 ⟨by simp, ih⟩
    · next hc =>
      obtain ⟨first, parts, hparts⟩ := List.exists_cons_of_ne_nil
        (List.splitOn_ne_nil kDefaultPathSeparator path)
      rw [hparts] at ih ⊢
      obtain ⟨hfirst, ih⟩ := List.forall_mem_cons.1 ih
      refine List.forall_mem_cons.2 ⟨?_, ih⟩
      simpa [Ne.symm (by simpa using hc : c ≠ kDefaultPathSeparator)] using hfirst

theorem stack_stackOf (path : Text) : Stack (isAbsolute path) (stackOf path) :=
  stack_foldl .nil (not_mem_splitOn _)

@[simp] theorem joined_nil : joined [] = [] := rfl

theorem joined_cons (part : Text) (stack : List Text) : joined (part :: stack) =
    if stack = [] then part else joined stack ++ kDefaultPathSeparator :: part := by
  cases stack <;> rfl

theorem joined_eq_nil {absolute : Bool} {stack : List Text} (h : Stack absolute stack) :
    joined stack = [] ↔ stack = [] := by
  cases h with
  | nil => simp
  | up => rw [joined_cons]; split <;> simp
  | name h hp => rw [joined_cons]; split <;> simp [hp.1]

/-- Where a part goes on. -/
theorem separated_joined {absolute : Bool} {stack : List Text} (h : Stack absolute stack)
    (part : Text) : separated (joined stack) ++ part = joined (part :: stack) := by
  simp only [joined_cons, separated, List.isEmpty_iff, joined_eq_nil h]
  split
  · next hnil => rw [hnil, joined_nil, List.nil_append]
  · rw [List.append_assoc, List.singleton_append]

/-- The places the loop keeps for a stack: where its names start. -/
inductive Holds : List Text → List Nat → Prop
  | nil : Holds [] []
  | up {stack : List Text} (h : Holds stack []) : Holds (['.', '.'] :: stack) []
  | name {stack : List Text} {starts : List Nat} {part : Text} (h : Holds stack starts)
      (hp : part ≠ ['.', '.']) : Holds (part :: stack) ((joined stack).length :: starts)

/-- **One round of the loop** is one step on the stack. -/
theorem normalizePart_eq {absolute : Bool} {stack : List Text} {starts : List Nat}
    (h : Stack absolute stack) (hs : Holds stack starts) (part : Text) :
    ∃ starts', normalizePart absolute (joined stack, starts) part =
      (joined (stepPart absolute stack part), starts') ∧
      Holds (stepPart absolute stack part) starts' := by
  unfold normalizePart stepPart
  by_cases hskip : part = [] ∨ part = ['.']
  · simp only [if_pos hskip]
    exact ⟨starts, rfl, hs⟩
  simp only [if_neg hskip]
  by_cases hup : part = ['.', '.']
  · simp only [if_pos hup]
    cases hs with
    | nil =>
      cases absolute with
      | true => exact ⟨[], rfl, .nil⟩
      | false => exact ⟨[], rfl, .up .nil⟩
    | @up stack hs =>
      cases h with
      | up h' relative ups =>
        refine ⟨[], ?_, by simpa using (Holds.up (.up hs))⟩
        simp only [relative, Bool.false_eq_true, if_false, if_true]
        rw [separated_joined (.up h' relative ups)]
      | name _ hp => exact absurd rfl hp.2.2.1
    | @name stack starts top hs hp =>
      refine ⟨starts, ?_, by simpa [hp] using hs⟩
      simp only [if_neg hp]
      rw [joined_cons]
      split
      · next hnil => simp [hnil]
      · rw [List.take_left]
  · simp only [if_neg hup]
    exact ⟨_, by rw [separated_joined h], .name hs hup⟩

theorem normalize_foldl {absolute : Bool} {stack : List Text} {starts : List Nat}
    (h : Stack absolute stack) (hs : Holds stack starts) {parts : List Text}
    (hp : ∀ part ∈ parts, kDefaultPathSeparator ∉ part) :
    (parts.foldl (normalizePart absolute) (joined stack, starts)).1 =
      joined (parts.foldl (stepPart absolute) stack) := by
  induction parts generalizing stack starts with
  | nil => rfl
  | cons part parts ih =>
    obtain ⟨starts', heq, hs'⟩ := normalizePart_eq h hs part
    rw [List.foldl_cons, heq]
    exact ih (h.step (hp part (List.mem_cons_self ..))) hs' fun q hq => hp q (.tail _ hq)

/-- **Normalization**: the text of the stack that the parts build. -/
theorem normalizeCanonical_eq (path : Text) :
    normalizeCanonical path = render (isAbsolute path) (stackOf path) := by
  have hout := normalize_foldl (.nil : Stack (isAbsolute path) []) .nil
    (not_mem_splitOn (if isAbsolute path then path.drop 1 else path))
  rw [joined_nil] at hout
  simp only [normalizeCanonical, render, hout, List.isEmpty_iff, ← stackOf.eq_1,
    joined_eq_nil (stack_stackOf path)]

/-! ## Joining -/

theorem splitOn_joined {absolute : Bool} {stack : List Text} (h : Stack absolute stack)
    (hne : stack ≠ []) : (joined stack).splitOn kDefaultPathSeparator = stack.reverse := by
  have hparts := h.parts
  clear h
  induction stack with
  | nil => exact absurd rfl hne
  | cons part stack ih =>
    obtain ⟨hpart, hparts⟩ := List.forall_mem_cons.1 hparts
    rw [joined_cons]
    split
    · next hnil => rw [hnil, List.splitOn_eq_singleton hpart.2.2]; rfl
    · next hnil =>
      rw [List.splitOn_append_cons_self, ih hnil hparts, List.splitOn_eq_singleton hpart.2.2,
        List.reverse_cons]

/-- A relative path does not begin with a separator. -/
theorem isAbsolute_joined {absolute : Bool} {stack : List Text} (h : Stack absolute stack)
    (hne : stack ≠ []) (rest : Text) : isAbsolute (joined stack ++ rest) = false := by
  have hparts := h.parts
  clear h
  induction stack generalizing rest with
  | nil => exact absurd rfl hne
  | cons part stack ih =>
    obtain ⟨hpart, hparts⟩ := List.forall_mem_cons.1 hparts
    rw [joined_cons]
    split
    · obtain ⟨c, part, rfl⟩ := List.exists_cons_of_ne_nil hpart.1
      have hc : c ≠ kDefaultPathSeparator := fun hc => hpart.2.2 (hc ▸ List.mem_cons_self ..)
      simp [isAbsolute, hc]
    · next hnil =>
      rw [List.append_assoc]
      exact ih hnil _ hparts

/-- **Joining** runs the child's parts on the stack of the base. -/
theorem normalizeCanonical_join {absolute : Bool} {stack : List Text} (h : Stack absolute stack)
    (child : Text) : normalizeCanonical (render absolute stack ++ kDefaultPathSeparator :: child) =
      render absolute ((child.splitOn kDefaultPathSeparator).foldl (stepPart absolute) stack) := by
  rw [normalizeCanonical_eq]
  cases absolute with
  | true =>
    have habs (rest : Text) : isAbsolute (kDefaultPathSeparator :: rest) = true := rfl
    simp only [render, stackOf, List.cons_append, habs, if_true, List.drop_succ_cons,
      List.drop_zero, List.splitOn_append_cons_self, List.foldl_append]
    by_cases hnil : stack = []
    · subst hnil
      rfl
    · rw [splitOn_joined h hnil, h.replay]
  | false =>
    by_cases hnil : stack = []
    · subst hnil
      have habs (rest : Text) : isAbsolute ('.' :: rest) = false := rfl
      have hdot : ['.'].splitOn kDefaultPathSeparator = [['.']] := rfl
      have hsplit := List.splitOn_append_cons_self (a := kDefaultPathSeparator) ['.'] child
      rw [List.singleton_append, hdot] at hsplit
      simp only [render, stackOf, Bool.false_eq_true, if_false, if_true, habs, List.cons_append,
        List.nil_append, hsplit]
      rfl
    · have hrender : render false stack = joined stack := by simp [render, hnil]
      rw [hrender, stackOf, isAbsolute_joined h hnil]
      simp only [Bool.false_eq_true, if_false, List.splitOn_append_cons_self, List.foldl_append,
        splitOn_joined h hnil, h.replay]

/-- A path is the text of a stack. -/
theorem exists_stack (p : Path) : ∃ absolute stack, Stack absolute stack ∧
    p.value = render absolute stack := by
  obtain ⟨text, h⟩ := p.canonical
  exact ⟨_, _, stack_stackOf text, h.trans (normalizeCanonical_eq text)⟩

theorem isAbsolute_render {absolute : Bool} {stack : List Text} (h : Stack absolute stack) :
    isAbsolute (render absolute stack) = absolute := by
  unfold render
  cases absolute with
  | true => rfl
  | false =>
    by_cases hnil : stack = []
    · subst hnil
      rfl
    · simpa [hnil] using isAbsolute_joined h hnil []

end Path

end Alcy
