import Alcy.Analyzer.Types
import Alcy.Lib.Total

/-! # The type table mirrors the declarations

What the checker keeps true of its type table. The table only grows, except that a nominal which is
reserved before its members are resolved is filled afterwards; meanwhile nothing but references to
its index is made. A nominal that is complete mirrors its declaration, slot by slot.
-/
namespace Alcy.Analyzer.Types
open Alcy.Ast Alcy.Diag Alcy.Ir

/-! ## Mirrors -/

/-- The slots hold copies of the nodes that `resolve_type` gave the types in this module: the calls
are calls of the history, in the order of the types. -/
def SlotsCopy (table : Table) (module : Nat) (self : Option TypeIdx) (types : List Ty)
    (slots : IdxRange) : Prop :=
  slots.size = types.length ∧
    ∃ (idxs : List TypeIdx) (nodes : List TypeNode), idxs.length = types.length ∧
    (List.zipWith (fun type idx => (⟨module, type, self, idx⟩ : Resolution)) types idxs).Sublist
      table.resolutions ∧
    idxs.map (table.storage.types[·]?) = nodes.map some ∧
    slots.toList.map (table.storage.types[·]?) = nodes.map some

/-- A variant of an enum and its declaration. -/
def VariantMirrors (p : Package) (table : Table) (module : Nat) (variant : EnumVariant)
    (idx : EnumVariantTypeIdx) : Prop :=
  ∃ row, table.storage.enumVariantTypes[idx]? = some row ∧ row.name = p.pool variant.name.name ∧
    SlotsCopy table module none variant.fields row.fields

/-- The row of a nominal and its declaration. -/
def Mirrors (p : Package) (table : Table) (entry : NominalEntry) : Prop :=
  match entry.item with
  | .struct decl => ∃ k row, table.storage.types[entry.type]? = some ⟨.struct, k⟩ ∧
      table.storage.structTypes[k]? = some row ∧ row.name = p.pool decl.name.name ∧
      SlotsCopy table entry.module none (decl.fields.map (·.type)) row.fields
  | .enum decl => ∃ k row, table.storage.types[entry.type]? = some ⟨.enum, k⟩ ∧
      table.storage.enumTypes[k]? = some row ∧ row.name = p.pool decl.name.name ∧
      List.Forall₂ (VariantMirrors p table entry.module) decl.variants row.variants.toList

/-- A resolved tuple type and its row. -/
def TupleMirrors (table : Table) (r : Resolution) : Prop :=
  ∀ span elements, r.type = .tuple span elements →
    ∃ k row, table.storage.types[r.idx]? = some ⟨.tuple, k⟩ ∧
      table.storage.tupleTypes[k]? = some row ∧
      SlotsCopy table r.module r.self elements row.elements

/-! ## Growth -/

/-- A registered entry keeps its declaration, and once it has a node, everything. -/
structure Kept (old new : NominalEntry) : Prop where
  module : new.module = old.module
  item : new.item = old.item
  settled : old.started = true → new = old

/-- Every row and every started entry stays as it is. -/
structure Extends (table table' : Table) : Prop where
  storage : table.storage.Extends table'.storage
  length : table'.nominals.length = table.nominals.length
  kept : ∀ (e : Nat) (old new : NominalEntry),
    table.nominals[e]? = some old → table'.nominals[e]? = some new → Kept old new
  blessed : table.blessed <+: table'.blessed
  resolutions : table.resolutions <+: table'.resolutions

/-- And what is started in between is also completed. -/
structure Grows (table table' : Table) : Prop extends Extends table table' where
  completed : ∀ (e : Nat) (old new : NominalEntry), table.nominals[e]? = some old →
    table'.nominals[e]? = some new → new.started = true → old.started = true ∨ new.complete = true

theorem Kept.refl (entry : NominalEntry) : Kept entry entry := ⟨rfl, rfl, fun _ => rfl⟩

/-- The entry at the same place of a table of the same length. -/
theorem getElem?_of_length {α β : Type} {l : List α} {l' : List β} (h : l'.length = l.length)
    {i : Nat} {a : α} (hi : l[i]? = some a) : ∃ b, l'[i]? = some b := by
  have hlt : i < l'.length := h ▸ (List.getElem?_eq_some_iff.1 hi).1
  exact ⟨l'[i], List.getElem?_eq_getElem hlt⟩

theorem Extends.refl (table : Table) : Extends table table where
  storage := .refl _
  length := rfl
  kept e old new ho hn := by
    obtain rfl : old = new := Option.some.inj (ho.symm.trans hn)
    exact .refl old
  blessed := List.prefix_rfl
  resolutions := List.prefix_rfl

theorem Extends.trans {table table' table'' : Table} (h : Extends table table')
    (h' : Extends table' table'') : Extends table table'' where
  storage := h.storage.trans h'.storage
  length := h'.length.trans h.length
  kept e old new ho hn := by
    obtain ⟨mid, hm⟩ := getElem?_of_length h.length ho
    have h₁ := h.kept e old mid ho hm
    have h₂ := h'.kept e mid new hm hn
    refine ⟨h₂.module.trans h₁.module, h₂.item.trans h₁.item, fun hs => ?_⟩
    obtain rfl := h₁.settled hs
    exact h₂.settled hs
  blessed := h.blessed.trans h'.blessed
  resolutions := h.resolutions.trans h'.resolutions

theorem Grows.refl (table : Table) : Grows table table where
  toExtends := .refl table
  completed e old new ho hn hs := by
    obtain rfl : old = new := Option.some.inj (ho.symm.trans hn)
    exact .inl hs

theorem Grows.trans {table table' table'' : Table} (h : Grows table table')
    (h' : Grows table' table'') : Grows table table'' where
  toExtends := h.toExtends.trans h'.toExtends
  completed e old new ho hn hs := by
    obtain ⟨mid, hm⟩ := getElem?_of_length h.length ho
    rcases h'.completed e mid new hm hn hs with hmid | hc
    · have hnew : new = mid := (h'.kept e mid new hm hn).settled hmid
      rw [hnew]
      exact h.completed e old mid ho hm hmid
    · exact .inr hc

/-- With the same entries there is nothing to complete. -/
theorem Grows.of_nominals {table table' : Table} (hs : table.storage.Extends table'.storage)
    (hn : table'.nominals = table.nominals) (hb : table.blessed <+: table'.blessed)
    (hr : table.resolutions <+: table'.resolutions) : Grows table table' where
  storage := hs
  length := by rw [hn]
  kept e old new ho hnew := by
    rw [hn] at hnew
    exact (Extends.refl table).kept e old new ho hnew
  blessed := hb
  resolutions := hr
  completed e old new ho hnew hst := by
    rw [hn] at hnew
    exact (Grows.refl table).completed e old new ho hnew hst

theorem Extends.entry {table table' : Table} (h : Extends table table') {entry : NominalEntry}
    (he : entry ∈ table.nominals) (hs : entry.started = true) : entry ∈ table'.nominals := by
  obtain ⟨e, he⟩ := List.mem_iff_getElem?.1 he
  obtain ⟨new, hn⟩ := getElem?_of_length h.length he
  rw [← (h.kept e entry new he hn).settled hs]
  exact List.mem_of_getElem? hn

theorem SlotsCopy.extend {table table' : Table} (h : Extends table table') {module : Nat}
    {self : Option TypeIdx} {types : List Ty} {slots : IdxRange}
    (hm : SlotsCopy table module self types slots) : SlotsCopy table' module self types slots := by
  obtain ⟨hsize, idxs, nodes, hlen, hsub, hidxs, hslots⟩ := hm
  exact ⟨hsize, idxs, nodes, hlen, hsub.trans h.resolutions.sublist,
    map_getElem?_mono h.storage.types hidxs, map_getElem?_mono h.storage.types hslots⟩

theorem VariantMirrors.extend {p : Package} {table table' : Table} (h : Extends table table')
    {module : Nat} {variant : EnumVariant} {idx : EnumVariantTypeIdx}
    (hm : VariantMirrors p table module variant idx) :
    VariantMirrors p table' module variant idx := by
  obtain ⟨row, hrow, hname, hcopy⟩ := hm
  exact ⟨row, getElem?_mono h.storage.variants hrow, hname, hcopy.extend h⟩

theorem Mirrors.extend {p : Package} {table table' : Table} (h : Extends table table')
    {entry : NominalEntry} (hm : Mirrors p table entry) : Mirrors p table' entry := by
  unfold Mirrors at hm ⊢
  split at hm
  · obtain ⟨k, row, hnode, hrow, hname, hcopy⟩ := hm
    exact ⟨k, row, getElem?_mono h.storage.types hnode,
      getElem?_mono h.storage.structs hrow, hname, hcopy.extend h⟩
  · obtain ⟨k, row, hnode, hrow, hname, hvariants⟩ := hm
    exact ⟨k, row, getElem?_mono h.storage.types hnode,
      getElem?_mono h.storage.enums hrow, hname, hvariants.imp fun _ _ hv => hv.extend h⟩

theorem TupleMirrors.extend {table table' : Table} (h : Extends table table') {r : Resolution}
    (hm : TupleMirrors table r) : TupleMirrors table' r := by
  intro span elements heq
  obtain ⟨k, row, hnode, hrow, hcopy⟩ := hm span elements heq
  exact ⟨k, row, getElem?_mono h.storage.types hnode,
    getElem?_mono h.storage.tuples hrow, hcopy.extend h⟩

/-! ## The invariant -/

/-- The node belongs to a nominal that has been reserved. -/
def IsNominal (table : Table) (node : TypeNode) : Prop :=
  ∃ entry ∈ table.nominals, entry.started = true ∧
    table.storage.types[entry.type]? = some node

/-- What the node holds stands before the index in the table. -/
def Falls (s : Storage) (idx : TypeIdx) (node : TypeNode) : Prop :=
  ∀ parts, s.nodeParts node = some parts → ∀ part ∈ parts, part < idx

/-- **The invariant of the table.** `falls` leaves the nominals out: they alone can hold a type that
is made after them. -/
structure Sound (p : Package) (table : Table) : Prop where
  closed : table.storage.Closed
  entries : ∀ entry ∈ table.nominals, entry.started = true →
    ∃ k, table.storage.types[entry.type]? = some ⟨entry.item.tag, k⟩
  distinct : ∀ (e e' : Nat) (entry entry' : NominalEntry),
    table.nominals[e]? = some entry → table.nominals[e']? = some entry' →
    entry.started = true → entry'.started = true →
    table.storage.types[entry.type]? = table.storage.types[entry'.type]? → e = e'
  structs : ∀ k < table.storage.structTypes.length, IsNominal table ⟨.struct, k⟩
  falls : ∀ (idx : Nat) (node : TypeNode), table.storage.types[idx]? = some node →
    IsNominal table node ∨ Falls table.storage idx node
  blessed : ∀ entry ∈ table.blessed, ∃ k, table.storage.types[entry.type]? = some ⟨.enum, k⟩
  complete : ∀ entry ∈ table.nominals, entry.complete = true →
    entry.started = true ∧ Mirrors p table entry
  resolutions : ∀ r ∈ table.resolutions,
    r.idx < table.storage.types.length ∧ TupleMirrors table r

theorem IsNominal.extend {table table' : Table} (h : Extends table table') {node : TypeNode}
    (hn : IsNominal table node) : IsNominal table' node := by
  obtain ⟨entry, he, hs, hnode⟩ := hn
  exact ⟨entry, h.entry he hs, hs, getElem?_mono h.storage.types hnode⟩

/-- An entry that extending a table has started: its node is new, and it is the only new one. -/
structure Fresh (table table' : Table) (e : Nat) (entry : NominalEntry) : Prop where
  incomplete : entry.complete = false
  node : ∃ k, table'.storage.types[entry.type]? = some ⟨entry.item.tag, k⟩ ∧
    ⟨entry.item.tag, k⟩ ∉ table.storage.types
  unique : ∀ (e' : Nat) (entry' : NominalEntry), table'.nominals[e']? = some entry' →
    table.nominals[e']? = some entry' ∨ e' = e

/-- **Extending keeps the invariant** when it holds of what is new. -/
theorem Sound.extend {p : Package} {table table' : Table} (h : Sound p table)
    (he : Extends table table') (hc : table'.storage.Closed)
    (hentries : ∀ (e : Nat) (entry : NominalEntry), table'.nominals[e]? = some entry →
      table.nominals[e]? = some entry ∨ Fresh table table' e entry)
    (hstructs : ∀ k, table.storage.structTypes.length ≤ k →
      k < table'.storage.structTypes.length → IsNominal table' ⟨.struct, k⟩)
    (hfalls : ∀ (idx : Nat) (node : TypeNode), table.storage.types.length ≤ idx →
      table'.storage.types[idx]? = some node →
      IsNominal table' node ∨ Falls table'.storage idx node)
    (hblessed : ∀ entry ∈ table'.blessed, entry ∈ table.blessed ∨
      ∃ k, table'.storage.types[entry.type]? = some ⟨.enum, k⟩)
    (hres : ∀ r ∈ table'.resolutions, r ∈ table.resolutions ∨
      r.idx < table'.storage.types.length ∧ TupleMirrors table' r) : Sound p table' := by
  have hnode {entry : NominalEntry} (hm : entry ∈ table.nominals) (hs : entry.started = true) :
      ∃ k, table.storage.types[entry.type]? = some ⟨entry.item.tag, k⟩ ∧
        table'.storage.types[entry.type]? = some ⟨entry.item.tag, k⟩ := by
    obtain ⟨k, hk⟩ := h.entries entry hm hs
    exact ⟨k, hk, getElem?_mono he.storage.types hk⟩
  -- an old entry and a fresh one have different nodes
  have hapart {e e' : Nat} {entry entry' : NominalEntry} (hold : table.nominals[e]? = some entry)
      (hs : entry.started = true) (hf : Fresh table table' e' entry')
      (heq : table'.storage.types[entry.type]? = table'.storage.types[entry'.type]?) : False := by
    obtain ⟨k, hk, hk'⟩ := hnode (List.mem_of_getElem? hold) hs
    obtain ⟨k', hnew, hnot⟩ := hf.node
    rw [hk', hnew] at heq
    rw [Option.some.inj heq] at hk
    exact hnot (List.mem_of_getElem? hk)
  refine ⟨hc, ?_, ?_, ?_, ?_, ?_, ?_, ?_⟩
  · intro entry hm hs
    obtain ⟨e, hm⟩ := List.mem_iff_getElem?.1 hm
    rcases hentries e entry hm with hold | hf
    · obtain ⟨k, -, hk⟩ := hnode (List.mem_of_getElem? hold) hs
      exact ⟨k, hk⟩
    · obtain ⟨k, hk, -⟩ := hf.node
      exact ⟨k, hk⟩
  · intro e e' entry entry' hm hm' hs hs' heq
    rcases hentries e entry hm with hold | hf
    · rcases hentries e' entry' hm' with hold' | hf'
      · obtain ⟨k, hk, hk'⟩ := hnode (List.mem_of_getElem? hold) hs
        obtain ⟨l, hl, hl'⟩ := hnode (List.mem_of_getElem? hold') hs'
        rw [hk', hl'] at heq
        exact h.distinct e e' entry entry' hold hold' hs hs' (by rw [hk, hl, heq])
      · exact (hapart hold hs hf' heq).elim
    · rcases hf.unique e' entry' hm' with hold' | rfl
      · exact (hapart hold' hs' hf heq.symm).elim
      · rfl
  · intro k hk
    rcases Nat.lt_or_ge k table.storage.structTypes.length with hlt | hge
    · exact (h.structs k hlt).extend he
    · exact hstructs k hge hk
  · intro idx node hidx
    rcases Nat.lt_or_ge idx table.storage.types.length with hlt | hge
    · have hold : table.storage.types[idx]? = some node := by
        rw [List.getElem?_eq_getElem hlt, ← hidx,
          getElem?_mono he.storage.types (List.getElem?_eq_getElem hlt)]
      rcases h.falls idx node hold with hn | hf
      · exact .inl (hn.extend he)
      · refine .inr fun parts hparts part hpart => ?_
        obtain ⟨parts', hparts', -⟩ := h.closed.nodeParts (List.mem_of_getElem? hold)
        rw [he.storage.nodeParts hparts', Option.some.injEq] at hparts
        exact hf parts' hparts' part (hparts ▸ hpart)
    · exact hfalls idx node hge hidx
  · intro entry hm
    rcases hblessed entry hm with hold | hnew
    · obtain ⟨k, hk⟩ := h.blessed entry hold
      exact ⟨k, getElem?_mono he.storage.types hk⟩
    · exact hnew
  · intro entry hm hcomplete
    obtain ⟨e, hm⟩ := List.mem_iff_getElem?.1 hm
    rcases hentries e entry hm with hold | hf
    · obtain ⟨hs, hmirrors⟩ := h.complete entry (List.mem_of_getElem? hold) hcomplete
      exact ⟨hs, hmirrors.extend he⟩
    · rw [hf.incomplete] at hcomplete
      cases hcomplete
  · intro r hm
    rcases hres r hm with hold | hnew
    · obtain ⟨hlt, hmirrors⟩ := h.resolutions r hold
      exact ⟨Nat.lt_of_lt_of_le hlt he.storage.types.length_le, hmirrors.extend he⟩
    · exact hnew

/-- Growth of the storage alone. -/
theorem Sound.grow {p : Package} {table : Table} (h : Sound p table) {s : Storage}
    (he : table.storage.Extends s) (hc : s.Closed)
    (hstructs : s.structTypes = table.storage.structTypes)
    (hfalls : ∀ (idx : Nat) (node : TypeNode), table.storage.types.length ≤ idx →
      s.types[idx]? = some node → IsNominal table node ∨ Falls s idx node) :
    Sound p { table with storage := s } ∧ Grows table { table with storage := s } := by
  have hg : Grows table { table with storage := s } :=
    .of_nominals he rfl List.prefix_rfl List.prefix_rfl
  refine ⟨h.extend hg.toExtends hc (fun _ _ hm => .inl hm) ?_ ?_ (fun _ hm => .inl hm)
    fun _ hm => .inl hm, hg⟩
  · intro k hge hlt
    rw [hstructs] at hlt
    exact absurd hlt (Nat.not_lt.2 hge)
  · intro idx node hge hidx
    exact (hfalls idx node hge hidx).imp (fun hn => hn.extend hg.toExtends) id

/-! ### Filling a reserved nominal -/

theorem getElem?_modify_cases {α : Type} {l : List α} {e e' : Nat} {f : α → α} {b : α}
    (h : (l.modify e f)[e']? = some b) :
    (e' = e ∧ ∃ a, l[e]? = some a ∧ b = f a) ∨ (e' ≠ e ∧ l[e']? = some b) := by
  rw [List.getElem?_modify] at h
  by_cases he : e = e'
  · subst he
    obtain ⟨a, ha, hb⟩ := Option.map_eq_some_iff.1 h
    exact .inl ⟨rfl, a, ha, by simpa using hb.symm⟩
  · obtain ⟨a, ha, hb⟩ := Option.map_eq_some_iff.1 h
    exact .inr ⟨Ne.symm he, by simpa [he, ha] using hb⟩

theorem SlotsCopy.congr {table table' : Table} (ht : table'.storage.types = table.storage.types)
    (hr : table'.resolutions = table.resolutions) {module : Nat} {self : Option TypeIdx}
    {types : List Ty} {slots : IdxRange} (h : SlotsCopy table module self types slots) :
    SlotsCopy table' module self types slots := by
  unfold SlotsCopy
  rw [ht, hr]
  exact h

theorem VariantMirrors.congr {p : Package} {table table' : Table}
    (ht : table'.storage.types = table.storage.types)
    (hv : table'.storage.enumVariantTypes = table.storage.enumVariantTypes)
    (hr : table'.resolutions = table.resolutions) {module : Nat} {variant : EnumVariant}
    {idx : EnumVariantTypeIdx} (h : VariantMirrors p table module variant idx) :
    VariantMirrors p table' module variant idx := by
  obtain ⟨row, hrow, hname, hcopy⟩ := h
  exact ⟨row, by rw [hv]; exact hrow, hname, hcopy.congr ht hr⟩

/-- A nominal with another node is not touched. -/
theorem Mirrors.refilled {p : Package} {table table' : Table} {node : TypeNode}
    (hs : Storage.Refilled table.storage table'.storage node)
    (hr : table'.resolutions = table.resolutions) {entry : NominalEntry}
    (hne : table.storage.types[entry.type]? ≠ some node) (h : Mirrors p table entry) :
    Mirrors p table' entry := by
  unfold Mirrors at h ⊢
  split at h
  · obtain ⟨k, row, hnode, hrow, hname, hcopy⟩ := h
    refine ⟨k, row, by rw [hs.types]; exact hnode, ?_, hname, hcopy.congr hs.types hr⟩
    rw [hs.structs k fun heq => hne (heq ▸ hnode)]
    exact hrow
  · obtain ⟨k, row, hnode, hrow, hname, hvariants⟩ := h
    refine ⟨k, row, by rw [hs.types]; exact hnode, ?_, hname,
      hvariants.imp fun _ _ hv => hv.congr hs.types hs.variants hr⟩
    rw [hs.enums k fun heq => hne (heq ▸ hnode)]
    exact hrow

/-- The table in which one nominal is filled. -/
structure Filled (p : Package) (table table' : Table) (e : Nat) (entry : NominalEntry)
    (node : TypeNode) : Prop where
  here : table.nominals[e]? = some entry
  started : entry.started = true
  reserved : table.storage.types[entry.type]? = some node
  storage : Storage.Refilled table.storage table'.storage node
  closed : table'.storage.Closed
  nominals : table'.nominals =
    table.nominals.modify e fun entry => { entry with complete := true }
  blessed : table'.blessed = table.blessed
  resolutions : table'.resolutions = table.resolutions
  mirrors : Mirrors p table' entry

/-- The completed flag is not part of what is mirrored. -/
theorem mirrors_complete {p : Package} {table : Table} {entry : NominalEntry} :
    Mirrors p table { entry with complete := true } ↔ Mirrors p table entry := Iff.rfl

/-- Completing an entry changes nothing else of it. -/
theorem Filled.entry {p : Package} {table table' : Table} {e : Nat} {entry : NominalEntry}
    {node : TypeNode} (h : Filled p table table' e entry node) {e' : Nat} {new : NominalEntry}
    (hn : table'.nominals[e']? = some new) : ∃ old, table.nominals[e']? = some old ∧
      new.type = old.type ∧ new.started = old.started ∧ new.item = old.item ∧
      new.module = old.module ∧ (e' ≠ e → new = old) ∧
      (e' = e → new = { entry with complete := true }) := by
  rw [h.nominals] at hn
  rcases getElem?_modify_cases hn with ⟨rfl, old, ho, rfl⟩ | ⟨hne, ho⟩
  · obtain rfl : old = entry := Option.some.inj (ho.symm.trans h.here)
    exact ⟨old, ho, rfl, rfl, rfl, rfl, fun hc => absurd rfl hc, fun _ => rfl⟩
  · exact ⟨new, ho, rfl, rfl, rfl, rfl, fun _ => rfl, fun hc => absurd hc hne⟩

theorem Filled.isNominal {p : Package} {table table' : Table} {e : Nat} {entry : NominalEntry}
    {node other : TypeNode} (h : Filled p table table' e entry node)
    (hn : IsNominal table other) : IsNominal table' other := by
  obtain ⟨old, hm, hs, hnode⟩ := hn
  obtain ⟨e', ho⟩ := List.mem_iff_getElem?.1 hm
  have hlen : table'.nominals.length = table.nominals.length := by
    rw [h.nominals, List.length_modify]
  obtain ⟨new, hnew⟩ := getElem?_of_length hlen ho
  obtain ⟨old', ho', htype, hstarted, -⟩ := h.entry hnew
  obtain rfl : old = old' := Option.some.inj (ho.symm.trans ho')
  exact ⟨new, List.mem_of_getElem? hnew, by rw [hstarted, hs], by rw [htype, h.storage.types, hnode]⟩

/-- **Filling keeps the invariant**: the row belongs to the one nominal. -/
theorem Sound.fill {p : Package} {table table' : Table} {e : Nat} {entry : NominalEntry}
    {node : TypeNode} (h : Sound p table) (hf : Filled p table table' e entry node) :
    Sound p table' := by
  have hentry {new : NominalEntry} (hm : new ∈ table'.nominals) :
      ∃ e' old, table'.nominals[e']? = some new ∧ table.nominals[e']? = some old ∧
        new.type = old.type ∧ new.started = old.started ∧ new.item = old.item ∧
        (e' ≠ e → new = old) ∧ (e' = e → new = { entry with complete := true }) := by
    obtain ⟨e', hn⟩ := List.mem_iff_getElem?.1 hm
    obtain ⟨old, ho, ht, hs, hi, -, hother, hthis⟩ := hf.entry hn
    exact ⟨e', old, hn, ho, ht, hs, hi, hother, hthis⟩
  refine ⟨hf.closed, ?_, ?_, ?_, ?_, ?_, ?_, ?_⟩
  · intro new hm hs
    obtain ⟨e', old, -, ho, ht, hst, hi, -⟩ := hentry hm
    obtain ⟨k, hk⟩ := h.entries old (List.mem_of_getElem? ho) (hst ▸ hs)
    exact ⟨k, by rw [hf.storage.types, ht, hi]; exact hk⟩
  · intro i j new new' hn hn' hs hs' heq
    obtain ⟨old, ho, ht, hst, -⟩ := hf.entry hn
    obtain ⟨old', ho', ht', hst', -⟩ := hf.entry hn'
    rw [hf.storage.types, ht, ht'] at heq
    exact h.distinct i j old old' ho ho' (hst ▸ hs) (hst' ▸ hs') heq
  · intro k hk
    rw [hf.storage.structsLength] at hk
    exact hf.isNominal (h.structs k hk)
  · intro idx other hidx
    rw [hf.storage.types] at hidx
    by_cases hne : other = node
    · subst hne
      exact .inl (hf.isNominal ⟨entry, List.mem_of_getElem? hf.here, hf.started, hf.reserved⟩)
    · refine (h.falls idx other hidx).imp hf.isNominal fun hfall parts hparts => ?_
      rw [hf.storage.nodeParts hne] at hparts
      exact hfall parts hparts
  · intro b hb
    rw [hf.blessed] at hb
    rw [hf.storage.types]
    exact h.blessed b hb
  · intro new hm hcomplete
    obtain ⟨e', old, hn, ho, ht, hst, -, hother, hthis⟩ := hentry hm
    by_cases hne : e' = e
    · rw [hthis hne]
      exact ⟨hf.started, mirrors_complete.2 hf.mirrors⟩
    · obtain rfl := hother hne
      obtain ⟨hs, hmirrors⟩ := h.complete new (List.mem_of_getElem? ho) hcomplete
      refine ⟨hs, hmirrors.refilled hf.storage hf.resolutions fun heq => hne ?_⟩
      exact h.distinct e' e new entry ho hf.here hs hf.started (heq.trans hf.reserved.symm)
  · intro r hm
    rw [hf.resolutions] at hm
    obtain ⟨hlt, hmirrors⟩ := h.resolutions r hm
    refine ⟨by rw [hf.storage.types]; exact hlt, fun span elements heq => ?_⟩
    obtain ⟨k, row, hnode, hrow, hcopy⟩ := hmirrors span elements heq
    exact ⟨k, row, by rw [hf.storage.types]; exact hnode, by rw [hf.storage.tuples]; exact hrow,
      hcopy.congr hf.storage.types hf.resolutions⟩

end Alcy.Analyzer.Types
