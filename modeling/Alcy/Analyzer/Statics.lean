import Alcy.Analyzer.Bodies
import Alcy.Ir.Copies
import Alcy.Lib.Contracts
import Alcy.Lib.Visited

/-! # What a static may not hold

`contains_mut_ref` follows values and references alike, so that a type may lead back to itself. It
is the search of `Lib.Visited` over the type table; a static whose type leads to an exclusive
reference is reported.
-/
namespace Alcy.Ir.Storage

variable (s : Storage)

/-- What a node leads to: the type that a reference points to, or what a value contains. -/
def nodeLinks (node : TypeNode) : Option (List TypeIdx) :=
  if node.tag = .ref ∨ node.tag = .mutRef then (s.refTypes[node.data]?).map fun row => [row.pointee]
  else s.nodeParts node

def links (idx : TypeIdx) : Option (List TypeIdx) := (s.types[idx]?).bind s.nodeLinks

/-- A field, a payload, an element or a pointee of the type. -/
def LeadsTo : TypeIdx → TypeIdx → Prop := Lib.Unfold.Edge s.links

def isMutRef (idx : TypeIdx) : Bool := (s.types[idx]?).any fun node => node.tag = .mutRef

theorem isMutRef_iff {idx : TypeIdx} : s.isMutRef idx = true ↔ s.HasTag idx .mutRef := by
  simp only [isMutRef, Option.any_eq_true, HasTag, decide_eq_true_eq]

/-- Some chain of fields, payloads, elements and pointees ends in an exclusive reference. -/
def ReachesExclusive (idx : TypeIdx) : Prop :=
  ∃ part, Relation.ReflTransGen s.LeadsTo idx part ∧ s.HasTag part .mutRef

/-- Nothing on a chain from the type is read out of its table. -/
def LinksInTables (idx : TypeIdx) : Prop :=
  ∀ part, Relation.ReflTransGen s.LeadsTo idx part →
    s.HasTag part .mutRef ∨ (s.links part).isSome = true

variable {s}

/-- It is enough that some indexes lead to one another only. -/
theorem linksInTables_of_closed {indexes : List TypeIdx} {idx : TypeIdx}
    (h : ∀ i ∈ indexes, (s.links i).any (fun parts => parts.all (· ∈ indexes)) = true)
    (hidx : idx ∈ indexes) : s.LinksInTables idx := by
  intro part hreach
  have hmem : part ∈ indexes := by
    induction hreach with
    | refl => exact hidx
    | @tail i j _ hstep ih =>
      obtain ⟨parts, hparts, hj⟩ := hstep
      have hall := h i ih
      rw [hparts, Option.any_some, List.all_eq_true] at hall
      exact of_decide_eq_true (hall j hj)
  obtain ⟨parts, hparts, -⟩ := (Option.any_eq_true _ _).1 (h part hmem)
  exact .inr (hparts ▸ rfl)

end Alcy.Ir.Storage

namespace Alcy.Analyzer.Bodies
open Alcy.Ast Alcy.Diag Alcy.Ir Alcy.Analyzer.Types
open Alcy.Lib.Contracts (bind_of_ok)
open Alcy.Lib.Visited (anyFrom look look_iff)

variable {s : Storage} {n : Nat} {visited : List TypeIdx} {idx : TypeIdx}

theorem anyVisited_eq (contains : List TypeIdx → TypeIdx → Option (Bool × List TypeIdx))
    (parts : List TypeIdx) : anyVisited contains visited parts = anyFrom contains visited parts := by
  induction parts generalizing visited with
  | nil => rfl
  | cons part rest ih =>
    rw [anyVisited, anyFrom]
    congr 1
    funext result
    obtain ⟨found, visited⟩ := result
    cases found with
    | true => rfl
    | false => exact ih

/-- The search below one vertex is the search there. -/
theorem anyFrom_singleton {contains : List TypeIdx → TypeIdx → Option (Bool × List TypeIdx)}
    {part : TypeIdx} : anyFrom contains visited [part] = contains visited part := by
  rw [anyFrom]
  cases contains visited part with
  | none => rfl
  | some result =>
    obtain ⟨found, visited⟩ := result
    cases found <;> rfl

/-- **The source's walk is the library's search** over the links of the table. -/
theorem containsMutRef_eq :
    containsMutRef s n visited idx = look s.isMutRef s.links n visited idx := by
  induction n generalizing visited idx with
  | zero => rfl
  | succ n ih =>
    have hrec : containsMutRef s n = look s.isMutRef s.links n := by
      funext visited idx
      exact ih
    rw [containsMutRef, look]
    split
    · rfl
    cases hnode : s.types[idx]? with
    | none => simp [Storage.isMutRef, Storage.links, hnode]
    | some node =>
      simp only [Storage.isMutRef, Storage.links, hnode, Option.any_some, Option.bind_eq_bind,
        Option.bind_some, decide_eq_true_eq]
      split
      · next htag =>
        rw [if_pos htag]
        rfl
      · next htag =>
        rw [if_neg (by simp [htag]), Storage.nodeLinks, if_pos (.inl htag), hrec]
        cases s.refTypes[node.data]? with
        | none => rfl
        | some row => exact anyFrom_singleton.symm
      · next hmut href =>
        rw [if_neg hmut, Storage.nodeLinks, if_neg (not_or.2 ⟨href, hmut⟩), hrec]
        congr 1
        funext parts
        exact anyVisited_eq _ _

/-- **The walk ends and is right**: from an empty list it finds an exclusive reference exactly
where one is reached, in a table with cycles too. -/
theorem holdsMutRef_iff (htables : s.LinksInTables idx) :
    ∃ found, holdsMutRef s idx = some found ∧ (found = true ↔ s.ReachesExclusive idx) := by
  have hall : ∀ part, Relation.ReflTransGen (Lib.Unfold.Edge s.links) idx part →
      part ∈ List.range s.types.length ∧
        (s.isMutRef part = false → (s.links part).isSome = true) := by
    intro part hreach
    rcases htables part hreach with htag | hlinks
    · obtain ⟨node, hnode, -⟩ := id htag
      refine ⟨List.mem_range.2 (List.getElem?_eq_some_iff.1 hnode).1, fun hnot => ?_⟩
      exact absurd (hnot.symm.trans (s.isMutRef_iff.2 htag)) Bool.false_ne_true
    · obtain ⟨parts, hparts⟩ := Option.isSome_iff_exists.1 hlinks
      obtain ⟨node, hnode, -⟩ := Option.bind_eq_some_iff.1 hparts
      exact ⟨List.mem_range.2 (List.getElem?_eq_some_iff.1 hnode).1, fun _ => hlinks⟩
  obtain ⟨found, visited, hlook, hiff⟩ := look_iff (n := s.types.length + 1) hall (by simp)
  refine ⟨found, by rw [holdsMutRef, containsMutRef_eq, hlook]; rfl, hiff.trans ?_⟩
  simp only [Storage.isMutRef_iff]
  rfl

/-- What a static of the type gets: an error, or nothing. -/
theorem checkStaticType_eq (st : BodyState) (decl : StaticItem) {found : Bool}
    (h : holdsMutRef st.check.table.storage idx = some found) :
    checkStaticType idx decl st = if found then
        report kAnalyzerInvalidOperation decl.type.span
          ("static '" ++ decl.name.name ++ "' must not contain '&mut'") st
      else .ok ((), st) := by
  have hread : read (holdsMutRef · idx) st = .ok (found, st) := by
    simp only [read, check, h, Option.map_some]
  unfold checkStaticType
  rw [bind_of_ok hread]
  cases found <;> rfl

/-- **Statics hold no exclusive reference**: the walk of `contains_mut_ref` from an empty list ends
and finds an exclusive reference exactly where a chain leads to one, in a table with cycles too; a
static of such a type is an error, and no other static is one for its type. -/
theorem exclusiveStatic_iff (htables : s.LinksInTables idx) :
    (∃ found, holdsMutRef s idx = some found ∧ (found = true ↔ s.ReachesExclusive idx)) ∧
    ∀ (st : BodyState) (decl : StaticItem), st.check.table.storage = s →
      (s.ReachesExclusive idx → checkStaticType idx decl st =
        report kAnalyzerInvalidOperation decl.type.span
          ("static '" ++ decl.name.name ++ "' must not contain '&mut'") st) ∧
      (¬ s.ReachesExclusive idx → checkStaticType idx decl st = .ok ((), st)) := by
  obtain ⟨found, hfound, hiff⟩ := holdsMutRef_iff htables
  refine ⟨⟨found, hfound, hiff⟩, fun st decl hst => ?_⟩
  have heq := checkStaticType_eq st decl (hst ▸ hfound)
  refine ⟨fun hreach => ?_, fun hnot => ?_⟩
  · rw [heq, if_pos (hiff.2 hreach)]
  · rw [heq, if_neg fun h => hnot (hiff.1 h)]

/-- A struct with a reference to itself and a field of type `&mut i32`. -/
def selfPointing : Storage :=
  { Storage.initial with
    types := internPrimitives ++ [⟨.struct, 0⟩, ⟨.ref, 0⟩, ⟨.mutRef, 1⟩]
    refTypes := [⟨17⟩, ⟨primitiveIdx .i32⟩]
    structTypes := [⟨0, ⟨18, 2⟩⟩] }

/-- The walk comes back to the struct, goes on, and finds the field. -/
theorem selfPointing_found : selfPointing.ReachesExclusive 17 ∧
    (∃ found, holdsMutRef selfPointing 17 = some found ∧
      (found = true ↔ selfPointing.ReachesExclusive 17)) ∧
    ∀ (st : BodyState) (decl : StaticItem), st.check.table.storage = selfPointing →
      (selfPointing.ReachesExclusive 17 → checkStaticType 17 decl st =
        report kAnalyzerInvalidOperation decl.type.span
          ("static '" ++ decl.name.name ++ "' must not contain '&mut'") st) ∧
      (¬ selfPointing.ReachesExclusive 17 → checkStaticType 17 decl st = .ok ((), st)) := by
  refine ⟨⟨19, .single ⟨[18, 19], by decide, by decide⟩, ⟨.mutRef, 1⟩, by decide, rfl⟩,
    exclusiveStatic_iff ?_⟩
  exact @Storage.linksInTables_of_closed selfPointing [17, 18, 19, 4] 17 (by decide) (by decide)

end Alcy.Analyzer.Bodies
