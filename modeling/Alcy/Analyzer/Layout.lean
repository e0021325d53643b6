import Alcy.Analyzer.CheckPackage
import Mathlib.Order.Nat

/-! # Accepted types have a finite layout

The search for recursive types starts at the nominals and tells repeats by the index. Slots are
copies with indexes of their own, yet no cycle escapes: only a nominal can hold what is made after
it, so every cycle of containment passes the node of a nominal, and a copy holds what the original
holds.
-/
namespace Alcy.Analyzer.Types
open Alcy.Ast Alcy.Diag Alcy.Ir
open Alcy.Lib.Total (bind_of_eq)

variable {p : Package} {st : CheckState}

/-! ## The search -/

/-- A recursive type is reported. -/
def RecursiveReported (bag : DiagBag) : Prop := ∃ d ∈ bag, d.code = kAnalyzerRecursiveType

theorem hasValueCycle_eq (s : Storage) (fuel : Nat) (stack : List TypeIdx) (root : TypeIdx) :
    hasValueCycle s fuel stack root = Lib.Cycle.search s.valueParts fuel stack root := by
  induction fuel generalizing stack root with
  | zero => rfl
  | succ fuel ih =>
    have hrest : hasValueCycle s fuel (stack ++ [root]) =
        Lib.Cycle.search s.valueParts fuel (stack ++ [root]) := funext fun part => ih _ part
    rw [hasValueCycle, Lib.Cycle.search, hrest]

/-- **The search answers**, and it finds the cycles that containment reaches from its root. -/
theorem hasValueCycle_total {s : Storage} (h : s.Closed) {root : TypeIdx}
    (hi : root < s.types.length) :
    ∃ cycle, hasValueCycle s (s.types.length + 1) [] root = some cycle ∧
      (cycle = true ↔ ∃ part, Relation.ReflTransGen s.Holds root part ∧
        Relation.TransGen s.Holds part part) := by
  have hall : ∀ part, Relation.ReflTransGen s.Holds root part →
      (s.valueParts part).isSome = true := by
    intro part hr
    obtain ⟨parts, hp, -⟩ := h.valueParts (h.reaches hi hr)
    rw [hp]
    rfl
  have hsearch := Lib.Cycle.search_iff s.enough_depth hall
  rw [hasValueCycle_eq]
  refine ⟨_, Lib.Cycle.search_eq s.enough_depth hall, ?_⟩
  rw [Lib.Cycle.search_eq s.enough_depth hall, Option.some.injEq] at hsearch
  exact hsearch

/-- A copy holds what the original holds. -/
theorem holds_of_node {s : Storage} {idx copy part : TypeIdx}
    (h : s.types[copy]? = s.types[idx]?) (hp : s.Holds copy part) : s.Holds idx part := by
  obtain ⟨parts, hparts, hmem⟩ := hp
  refine ⟨parts, ?_, hmem⟩
  rw [Storage.valueParts, ← h]
  exact hparts

/-- **Every cycle is reached from a nominal.** -/
theorem Sound.nominal_of_cycle {table : Table} (h : Sound p table) {idx : TypeIdx}
    (hc : Relation.TransGen table.storage.Holds idx idx) :
    ∃ entry ∈ table.nominals, entry.started = true ∧
      ∃ part, Relation.ReflTransGen table.storage.Holds entry.type part ∧
        Relation.TransGen table.storage.Holds part part := by
  have hdown : ∀ a b, table.storage.Holds a b →
      (∃ node, table.storage.types[a]? = some node ∧ IsNominal table node) ∨ b < a := by
    rintro a b ⟨parts, hparts, hmem⟩
    obtain ⟨node, hnode, hnodeParts⟩ := Option.bind_eq_some_iff.1 hparts
    rcases h.falls a node hnode with hn | hf
    · exact .inl ⟨node, hnode, hn⟩
    · exact .inr (hf parts hnodeParts b hmem)
  obtain ⟨copy, ⟨node, hnode, entry, hentry, hstarted, htype⟩, hcopy⟩ :=
    Lib.Cycle.exists_special hdown hc
  obtain ⟨part, hfirst, hback⟩ := Relation.TransGen.head'_iff.1 hcopy
  refine ⟨entry, hentry, hstarted, copy, ?_, hcopy⟩
  exact .head (holds_of_node (hnode.trans htype.symm) hfirst) hback

/-! ## Validation -/

/-- The entry's type reaches a cycle. -/
def Recursive (table : Table) (entry : NominalEntry) : Prop :=
  ∃ part, Relation.ReflTransGen table.storage.Holds entry.type part ∧
    Relation.TransGen table.storage.Holds part part

theorem validateEntry_eq (h : Sound p st.table) {entry : NominalEntry}
    (hm : entry ∈ st.table.nominals) (hc : entry.complete = true) :
    ∃ bag, validateEntry entry st = some ((), { st with bag }) ∧
      (RecursiveReported bag ↔ RecursiveReported st.bag ∨ Recursive st.table entry) := by
  obtain ⟨k, hk⟩ := h.entries entry hm (h.complete entry hm hc).1
  obtain ⟨cycle, hcycle, hiff⟩ :=
    hasValueCycle_total h.closed (List.getElem?_eq_some_iff.1 hk).1
  have hrun : validateEntry entry st = (if cycle = true then
      report kAnalyzerRecursiveType entry.item.span
        ("recursive type '" ++ entry.item.name ++ "' without indirection")
      else pure ()) st := by
    unfold validateEntry
    rw [bind_of_eq (s := st) (a := st) rfl, if_pos hc, bind_of_eq (s := st) (a := cycle)]
    show (liftM (hasValueCycle st.table.storage _ [] entry.type) : CheckM Bool) st = _
    rw [hcycle]
    rfl
  rw [hrun]
  cases cycle with
  | false =>
    refine ⟨st.bag, rfl, (or_iff_left fun hrec => ?_).symm⟩
    exact Bool.false_ne_true (hiff.2 hrec)
  | true =>
    refine ⟨_, rfl, iff_of_true ⟨_, List.mem_append_right _ (List.mem_singleton_self _), rfl⟩
      (.inr (hiff.1 rfl))⟩

/-- The loop over a run of entries. -/
theorem validateEntries_eq (h : Sound p st.table) {entries : List NominalEntry}
    (hm : ∀ entry ∈ entries, entry ∈ st.table.nominals ∧ entry.complete = true) :
    ∃ bag, entries.forM validateEntry st = some ((), { st with bag }) ∧
      (RecursiveReported bag ↔
        RecursiveReported st.bag ∨ ∃ entry ∈ entries, Recursive st.table entry) := by
  induction entries generalizing st with
  | nil => exact ⟨st.bag, rfl, by simp⟩
  | cons entry entries ih =>
    obtain ⟨hfirst, hrest⟩ := List.forall_mem_cons.1 hm
    obtain ⟨bag, hrun, hbag⟩ := validateEntry_eq h hfirst.1 hfirst.2
    have hnext : Sound p ({ st with bag } : CheckState).table := h
    obtain ⟨bag', hrun', hbag'⟩ := ih hnext hrest
    refine ⟨bag', ?_, ?_⟩
    · show (validateEntry entry >>= fun _ => entries.forM validateEntry) st = _
      rw [bind_of_eq hrun, hrun']
    · rw [hbag', hbag, or_assoc, List.exists_mem_cons_iff]

/-- **Validation reports the cycles** of a checked table, and changes nothing else. -/
theorem validateCycles_eq (h : Checked p st.table)
    (hb : ∀ d ∈ st.bag, d.code ≠ kAnalyzerRecursiveType) :
    ∃ bag, validateCycles st = some ((), { st with bag }) ∧
      (RecursiveReported bag ↔ ∃ idx, Relation.TransGen st.table.storage.Holds idx idx) := by
  obtain ⟨bag, hrun, hbag⟩ := validateEntries_eq h.sound fun entry hm => ⟨hm, h.complete entry hm⟩
  refine ⟨bag, hrun, hbag.trans ⟨?_, ?_⟩⟩
  · rintro (⟨d, hd, hcode⟩ | ⟨entry, -, part, -, hcyc⟩)
    · exact absurd hcode (hb d hd)
    · exact ⟨part, hcyc⟩
  · rintro ⟨idx, hcyc⟩
    obtain ⟨entry, hm, -, hrec⟩ := h.sound.nominal_of_cycle hcyc
    exact .inr ⟨entry, hm, hrec⟩

/-! ## `check_package` -/

/-- What `check_package` leaves behind. -/
theorem checkPackage_eq (p : Package) (calls : List BodyCall) :
    ∃ st, checkPackage p calls .start = some ((), st) ∧ Checked p st.table ∧
      (RecursiveReported st.bag ↔ ∃ idx, Relation.TransGen st.table.storage.Holds idx idx) := by
  obtain ⟨st, hrun, hchecked, hbag⟩ := checkItems_checked p calls
  obtain ⟨bag, hvalidate, hiff⟩ := validateCycles_eq hchecked hbag
  refine ⟨{ st with bag }, ?_, hchecked, hiff⟩
  unfold checkPackage
  rw [bind_of_eq hrun, hvalidate]

/-- **Accepted types have a finite layout**: a recursive type is reported exactly when containment
by value has a cycle, and without a report copyability is decided for every type. -/
theorem recursiveReported_iff (p : Package) (calls : List BodyCall) :
    ∃ st, checkPackage p calls .start = some ((), st) ∧
      (RecursiveReported st.bag ↔ ∃ idx, Relation.TransGen st.table.storage.Holds idx idx) ∧
      (¬ RecursiveReported st.bag → ∀ idx < st.table.storage.types.length,
        (st.table.storage.isCopyType (st.table.storage.types.length + 1) idx).isSome = true) := by
  obtain ⟨st, hrun, hchecked, hiff⟩ := checkPackage_eq p calls
  refine ⟨st, hrun, hiff, fun hclean idx hidx => ?_⟩
  exact hchecked.sound.closed.isCopyType_isSome (fun i hi => hclean (hiff.2 ⟨i, hi⟩)) hidx

/-- **The type table mirrors the declarations**: the checker runs to its end, so that no push into a
sequence has failed its check; every declared nominal has an entry, every entry's row has the slots
of its declaration, every struct of the table is the row of an entry, and every tuple type that was
resolved has the slots of its elements. -/
theorem typeTable_mirrors (p : Package) (calls : List BodyCall) :
    ∃ st, checkPackage p calls .start = some ((), st) ∧
      (∀ module < p.tree.modules.length, ∀ item ∈ (p.tree.node module).items,
        ∀ nominal, asNominal item = some nominal → ¬ IsReserved nominal.name →
          Known st.table module nominal.name) ∧
      (∀ entry ∈ st.table.nominals, Mirrors p st.table entry ∧
        ∃ item ∈ (p.tree.node entry.module).items, asNominal item = some entry.item) ∧
      (∀ k < st.table.storage.structTypes.length, ∃ entry ∈ st.table.nominals,
        st.table.storage.types[entry.type]? = some ⟨.struct, k⟩) ∧
      ∀ r ∈ st.table.resolutions, TupleMirrors st.table r := by
  obtain ⟨st, hrun, hchecked, -⟩ := checkPackage_eq p calls
  refine ⟨st, hrun, hchecked.known, fun entry hm => ⟨?_, (hchecked.declared entry hm).2⟩,
    fun k hk => ?_, fun r hr => (hchecked.sound.resolutions r hr).2⟩
  · exact (hchecked.sound.complete entry hm (hchecked.complete entry hm)).2
  · obtain ⟨entry, hm, -, hnode⟩ := hchecked.sound.structs k hk
    exact ⟨entry, hm, hnode⟩

end Alcy.Analyzer.Types
