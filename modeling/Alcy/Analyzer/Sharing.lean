import Alcy.Analyzer.Meanings

/-! # Which types share an index

What resolving a type keeps and leaves, over and above the invariant of the type table. A type
without a tuple that has elements is found again under its one index. A type with such a tuple gets
a new node, which nothing else points to while the call that asked for it goes on.
-/
namespace Alcy.Analyzer.Types
open Alcy.Ast Alcy.Diag Alcy.Ir
open Alcy.Lib.Total (Frame Runs bind_of_eq)

variable {p : Package} {known known' : TypeIdx → Prop} {n n' : Nat}
  {table table' : Table} {m : Meaning} {idx : TypeIdx}

/-! ## Shared and loose indexes -/

/-- The index of some type, built from what is known. -/
def Shared (known : TypeIdx → Prop) (table : Table) (idx : TypeIdx) : Prop :=
  ∃ m, Interned known table m idx

/-- No reference points to the type, it is no argument of `Result` or `Option` and no element of a
tuple, no slot holds a copy of it, and interning does not find it. Its node may be the one of a
primitive reference, which is not given to anything. -/
structure Loose (known : TypeIdx → Prop) (table : Table) (idx : TypeIdx) : Prop where
  lt : idx < table.storage.types.length
  base : kPrimitiveTypeCount + 1 ≤ idx
  refs : ∀ row ∈ table.storage.refTypes, row.pointee ≠ idx
  args : ∀ entry ∈ table.blessed, idx ∉ entry.args
  slots : ∀ row ∈ table.storage.tupleTypes, idx ∉ row.elements.toList
  alone : ∀ other, other ≠ idx → table.storage.types[other]? = table.storage.types[idx]? →
    other < kPrimitiveTypeCount + 1 ∧ ¬ Shared known table other
  unshared : ¬ Shared known table idx

/-- The step from one table to a later one. New references, new arguments and new copies take types
from the bound on, or shared ones. -/
structure Moved (known : TypeIdx → Prop) (n : Nat) (table table' : Table) : Prop where
  types : table.storage.types <+: table'.storage.types
  kept : ∀ known m idx, Interned known table m idx → Interned known table' m idx
  old : ∀ known m idx, idx < table.storage.types.length → Interned known table' m idx →
    Interned known table m idx
  refs : ∀ row ∈ table'.storage.refTypes, row ∈ table.storage.refTypes ∨ n ≤ row.pointee ∨
    Shared known table' row.pointee
  args : ∀ entry ∈ table'.blessed, entry ∈ table.blessed ∨
    ∀ arg ∈ entry.args, n ≤ arg ∨ Shared known table' arg
  slots : ∀ row ∈ table'.storage.tupleTypes, row ∈ table.storage.tupleTypes ∨
    ∀ slot ∈ row.elements.toList, n ≤ slot
  copies : ∀ copy idx, table.storage.types.length ≤ copy → kPrimitiveTypeCount + 1 ≤ idx →
    idx < table.storage.types.length → table'.storage.types[copy]? = table'.storage.types[idx]? →
    ∃ origin < table.storage.types.length,
      table'.storage.types[origin]? = table'.storage.types[idx]? ∧
      (n ≤ origin ∨ Shared known table' origin)

theorem Moved.length (h : Moved known n table table') :
    table.storage.types.length ≤ table'.storage.types.length := h.types.length_le

/-- The nodes of a table are the same in a longer one. -/
theorem getElem?_longer {α : Type} {l l' : List α} (h : l <+: l') {i : Nat} (hi : i < l.length) :
    l'[i]? = l[i]? := by
  rw [List.getElem?_eq_getElem hi, getElem?_mono h (List.getElem?_eq_getElem hi)]

theorem mem_drop_base {types : List TypeNode} {node : TypeNode}
    (hbase : kPrimitiveTypeCount + 1 ≤ idx) (hnode : types[idx]? = some node) :
    node ∈ types.drop (kPrimitiveTypeCount + 1) := by
  refine List.mem_of_getElem? (i := idx - (kPrimitiveTypeCount + 1)) ?_
  rw [List.getElem?_drop, Nat.add_sub_cancel' hbase, hnode]

/-- Behind the end of a table nothing is a copy. -/
theorem no_copy {types : List TypeNode} {copy idx : TypeIdx} (hcopy : types.length ≤ copy)
    (hidx : idx < types.length) : types[copy]? ≠ types[idx]? := by
  rw [List.getElem?_eq_none hcopy, List.getElem?_eq_getElem hidx]
  exact nofun

theorem Shared.moved (h : Moved known' n table table') (hs : Shared known table idx) :
    Shared known table' idx :=
  hs.imp fun m hm => h.kept known m idx hm

theorem Moved.refl (known : TypeIdx → Prop) (n : Nat) (table : Table) :
    Moved known n table table where
  types := List.prefix_rfl
  kept _ _ _ h := h
  old _ _ _ _ h := h
  refs _ h := .inl h
  args _ h := .inl h
  slots _ h := .inl h
  copies _ _ hcopy _ hidx heq := absurd heq (no_copy hcopy hidx)

theorem Moved.trans {table'' : Table} (h : Moved known n table table')
    (h' : Moved known n table' table'') : Moved known n table table'' where
  types := h.types.trans h'.types
  kept known m idx hm := h'.kept known m idx (h.kept known m idx hm)
  old known m idx hidx hm :=
    h.old known m idx hidx (h'.old known m idx (Nat.lt_of_lt_of_le hidx h.length) hm)
  refs row hrow := by
    rcases h'.refs row hrow with hrow | hnew
    · exact (h.refs row hrow).imp id fun hmid => hmid.imp id fun hs => hs.moved h'
    · exact .inr hnew
  args entry hentry := by
    rcases h'.args entry hentry with hentry | hnew
    · refine (h.args entry hentry).imp id fun hmid arg harg => ?_
      exact (hmid arg harg).imp id fun hs => hs.moved h'
    · exact .inr hnew
  slots row hrow := (h'.slots row hrow).elim (h.slots row) .inr
  copies copy idx hcopy hbase hidx heq := by
    -- a copy made in the first step, of a type that was there before it
    have hfirst {copy : TypeIdx} (hcopy : table.storage.types.length ≤ copy)
        (hlt : copy < table'.storage.types.length)
        (heq : table''.storage.types[copy]? = table''.storage.types[idx]?) :
        ∃ origin < table.storage.types.length,
          table''.storage.types[origin]? = table''.storage.types[idx]? ∧
          (n ≤ origin ∨ Shared known table'' origin) := by
      have hmid := Nat.lt_of_lt_of_le hidx h.length
      rw [getElem?_longer h'.types hlt, getElem?_longer h'.types hmid] at heq
      obtain ⟨origin, horigin, hsame, hopen⟩ := h.copies copy idx hcopy hbase hidx heq
      refine ⟨origin, horigin, ?_, hopen.imp id fun hs => hs.moved h'⟩
      rwa [getElem?_longer h'.types (Nat.lt_of_lt_of_le horigin h.length),
        getElem?_longer h'.types hmid]
    rcases Nat.lt_or_ge copy table'.storage.types.length with hlt | hge
    · exact hfirst hcopy hlt heq
    · obtain ⟨origin, horigin, hsame, hopen⟩ :=
        h'.copies copy idx hge hbase (Nat.lt_of_lt_of_le hidx h.length) heq
      rcases Nat.lt_or_ge origin table.storage.types.length with hold | hnew
      · exact ⟨origin, hold, hsame, hopen⟩
      · exact hfirst hnew horigin hsame

/-- A lower bound and more that is known allow more. -/
theorem Moved.weaken (hn : n ≤ n') (hk : ∀ i, known' i → known i)
    (h : Moved known' n' table table') : Moved known n table table' := by
  have hw {idx : TypeIdx} (hnew : n' ≤ idx ∨ Shared known' table' idx) :
      n ≤ idx ∨ Shared known table' idx :=
    hnew.imp (Nat.le_trans hn) fun hs => hs.imp fun _ hm => hm.weaken hk
  exact { h with
    refs := fun row hrow => (h.refs row hrow).imp id hw
    args := fun entry hentry =>
      (h.args entry hentry).imp id fun hnew arg harg => hw (hnew arg harg)
    slots := fun row hrow =>
      (h.slots row hrow).imp id fun hnew slot hslot => Nat.le_trans hn (hnew slot hslot)
    copies := fun copy idx hcopy hbase hidx heq => by
      obtain ⟨origin, horigin, hsame, hopen⟩ := h.copies copy idx hcopy hbase hidx heq
      exact ⟨origin, horigin, hsame, hw hopen⟩ }

/-- **What is loose stays loose**: later steps have no way to it. -/
theorem Loose.moved (h : Loose known table idx) (hn : idx < n)
    (hm : Moved known n table table') : Loose known table' idx := by
  have hno {other : TypeIdx} (hnew : n ≤ other ∨ Shared known table' other) : other ≠ idx := by
    rintro rfl
    rcases hnew with hge | ⟨m, hm'⟩
    · exact absurd hn (Nat.not_lt.2 hge)
    · exact h.unshared ⟨m, hm.old known m other h.lt hm'⟩
  refine ⟨Nat.lt_of_lt_of_le h.lt hm.length, h.base, ?_, ?_, ?_, ?_, ?_⟩
  · exact fun row hrow => (hm.refs row hrow).elim (h.refs row) hno
  · intro entry hentry harg
    rcases hm.args entry hentry with hentry | hnew
    · exact h.args entry hentry harg
    · exact hno (hnew idx harg) rfl
  · intro row hrow hslot
    rcases hm.slots row hrow with hrow | hnew
    · exact h.slots row hrow hslot
    · exact absurd hn (Nat.not_lt.2 (hnew idx hslot))
  · intro other hne heq
    have hold {other : TypeIdx} (hlt : other < table.storage.types.length)
        (hne : other ≠ idx)
        (heq : table'.storage.types[other]? = table'.storage.types[idx]?) :
        other < kPrimitiveTypeCount + 1 ∧ ¬ Shared known table' other := by
      rw [getElem?_longer hm.types hlt, getElem?_longer hm.types h.lt] at heq
      refine (h.alone other hne heq).imp id fun hnot => ?_
      exact fun ⟨m, hm'⟩ => hnot ⟨m, hm.old known m other hlt hm'⟩
    rcases Nat.lt_or_ge other table.storage.types.length with hlt | hge
    · exact hold hlt hne heq
    · -- a new copy would be one of a type that is open, and this one is not
      obtain ⟨origin, horigin, hsame, hopen⟩ := hm.copies other idx hge h.base h.lt heq
      by_cases hthis : origin = idx
      · exact absurd hthis (hno hopen)
      · obtain ⟨hprim, hnot⟩ := hold horigin hthis hsame
        have hge : n ≤ origin := hopen.resolve_right hnot
        exact absurd (Nat.lt_of_lt_of_le hn hge)
          (Nat.not_lt.2 (Nat.le_trans (Nat.le_of_lt hprim) h.base))
  · exact fun ⟨m, hm'⟩ => h.unshared ⟨m, hm.old known m idx h.lt hm'⟩

/-- The index that a call gave a meaning: the shared one, or a loose one from the bound on. -/
structure Lands (known : TypeIdx → Prop) (n : Nat) (table : Table) (m : Meaning) (idx : TypeIdx) :
    Prop where
  shared : m.tupleFree = true → Interned known table m idx
  fresh : m.tupleFree = false → n ≤ idx ∧ Loose known table idx

theorem Lands.shares (h : Lands known n table m idx) : n ≤ idx ∨ Shared known table idx := by
  cases hm : m.tupleFree with
  | true => exact .inr ⟨m, h.shared hm⟩
  | false => exact .inl (h.fresh hm).1

theorem Lands.moved (h : Lands known n table m idx) (hidx : idx < n')
    (hm : Moved known n' table table') : Lands known n table' m idx where
  shared hfree := hm.kept known m idx (h.shared hfree)
  fresh hfree := ⟨(h.fresh hfree).1, (h.fresh hfree).2.moved hidx hm⟩

/-- A new node that holds something that is not shared is not shared itself. -/
theorem not_shared (hk : ∀ i, known i → i < idx)
    (hnominals : ∀ entry ∈ table.nominals, entry.started = true → entry.type < idx)
    {tag : TypeTag} {k : Nat} (hnode : table.storage.types[idx]? = some ⟨tag, k⟩)
    (hmarker : tag ≠ .never ∧ tag ≠ .error)
    (htuple : tag = .tuple → ∀ row, table.storage.tupleTypes[k]? = some row →
      row.elements.toList ≠ [])
    (hrefs : ∀ isMut, tag = referenceTag isMut → ∀ row, table.storage.refTypes[k]? = some row →
      ¬ Shared known table row.pointee)
    (hblessed : ∀ entry ∈ table.blessed, entry.type = idx →
      ∃ arg ∈ entry.args, ¬ Shared known table arg) : ¬ Shared known table idx := by
  rintro ⟨m, hm⟩
  cases hm with
  | node h => exact Nat.lt_irrefl _ (hk _ h)
  | marker htag h =>
    obtain ⟨k', hnode'⟩ := markerSlot_some h
    cases hnode.symm.trans hnode'
    rcases htag with rfl | rfl
    · exact hmarker.1 rfl
    · exact hmarker.2 rfl
  | nominal h hs => exact Nat.lt_irrefl _ (hnominals _ (List.mem_of_getElem? h) hs)
  | empty h =>
    obtain ⟨k', row, hnode', hrow, hempty⟩ := tupleSlot_some h
    cases hnode.symm.trans hnode'
    exact htuple rfl row hrow hempty
  | ref hinner h =>
    obtain ⟨k', hnode', hrow⟩ := refSlot_some h
    cases hnode.symm.trans hnode'
    exact hrefs _ rfl _ hrow ⟨_, hinner⟩
  | option hinner h =>
    obtain ⟨hmem, -, hargs⟩ := blessedSlot_some h
    obtain ⟨arg, harg, hnot⟩ := hblessed _ hmem rfl
    rw [hargs, List.mem_singleton] at harg
    exact hnot ⟨_, harg ▸ hinner⟩
  | result h₁ h₂ h =>
    obtain ⟨hmem, -, hargs⟩ := blessedSlot_some h
    obtain ⟨arg, harg, hnot⟩ := hblessed _ hmem rfl
    rw [hargs] at harg
    rcases List.mem_pair.1 harg with rfl | rfl
    · exact hnot ⟨_, h₁⟩
    · exact hnot ⟨_, h₂⟩

/-! ## The frame -/

/-- The indexes that a block's types are built from: the primitives that have a name, and its own
type. -/
def Given (self : Option TypeIdx) (idx : TypeIdx) : Prop :=
  idx ≤ primitiveIdx .str ∨ self = some idx

/-- No slot before the index has its node. -/
def First (s : Storage) (idx : TypeIdx) : Prop :=
  kPrimitiveTypeCount + 1 ≤ idx ∧
    ∀ other, kPrimitiveTypeCount + 1 ≤ other → other < idx → s.types[other]? ≠ s.types[idx]?

/-- The calls for the parts of a type are calls of the history. Those of a tuple are known. -/
def PartsMade (table : Table) (r : Resolution) : Prop :=
  match r.type with
  | .ref _ isMut inner => ∃ k pointee,
      table.storage.types[r.idx]? = some ⟨referenceTag isMut, k⟩ ∧
      table.storage.refTypes[k]? = some ⟨pointee⟩ ∧
      ⟨r.module, inner, r.self, pointee⟩ ∈ table.resolutions
  | .path _ path args => singleSegment path ≠ some "Self" →
      ∀ isResult, blessedPath path = some isResult → args.length = blessedArity isResult →
      ∃ entry ∈ table.blessed, entry.type = r.idx ∧ entry.isResult = isResult ∧
        List.Forall₂ (fun type idx => ⟨r.module, type, r.self, idx⟩ ∈ table.resolutions) args
          entry.args
  | _ => True

/-- What the parts of a type with a tuple have in common with those of another type: nothing that
has a tuple in it. -/
def Apart (s : Storage) (other : TypeIdx) (m : Meaning) (idx : TypeIdx) : Prop :=
  m.tupleFree = false →
  match m with
  | .ref isMut _ => ∀ k k' row row', k ≠ k' →
      s.types[other]? = some ⟨referenceTag isMut, k⟩ → s.refTypes[k]? = some row →
      s.types[idx]? = some ⟨referenceTag isMut, k'⟩ → s.refTypes[k']? = some row' →
      row.pointee ≠ row'.pointee
  | .tuple elements => ∀ k k' row row', k ≠ k' →
      s.types[other]? = some ⟨.tuple, k⟩ → s.tupleTypes[k]? = some row →
      s.types[idx]? = some ⟨.tuple, k'⟩ → s.tupleTypes[k']? = some row' →
      ∀ slot ∈ row.elements.toList, ∀ part ∈ elements.zip row'.elements.toList,
        slot ≠ part.2 ∧ (part.1.tupleFree = false → s.types[slot]? ≠ s.types[part.2]?)
  | _ => True

/-- What the history tells: calls for the same type without tuples got its one index, the index of a
tuple was new, and what the calls for the parts left stands in its row. -/
structure Told (p : Package) (table : Table) : Prop where
  shared : ∀ r ∈ table.resolutions, (r.meaning p table.nominals).tupleFree = true →
    Interned (Given r.self) table (r.meaning p table.nominals) r.idx
  fresh : table.resolutions.Pairwise fun r r' =>
    (r'.meaning p table.nominals).tupleFree = false → r.idx < r'.idx
  usable : ∀ r ∈ table.resolutions, table.storage.usable r.idx = true
  first : ∀ r ∈ table.resolutions, (r.meaning p table.nominals).tupleFree = false →
    First table.storage r.idx
  built : ∀ r ∈ table.resolutions, PartsMade table r
  apart : table.resolutions.Pairwise fun r r' =>
    Apart table.storage r.idx (r'.meaning p table.nominals) r'.idx

/-- The frame of the checker, with what interning adds to it. -/
def sharing (p : Package) (known : TypeIdx → Prop) (n : Nat) : Frame CheckState where
  inv st := (frame p).inv st ∧ Tidy st.table ∧ Told p st.table
  rel st st' := Grows st.table st'.table ∧ Moved known n st.table st'.table
  refl _ := ⟨.refl _, .refl ..⟩
  trans h h' := ⟨h.1.trans h'.1, h.2.trans h'.2⟩

/-- Declarations are looked up as before in a later table. -/
theorem declared_extend (h : Extends table table') :
    declared p table'.nominals = declared p table.nominals := by
  funext module path
  have hlook (target : Nat) (name : String) :
      lookupNominal p table'.nominals module path target name =
        lookupNominal p table.nominals module path target name := by
    unfold lookupNominal
    simp only [findNominal_extend h]
  unfold declared
  simp only [hlook]

theorem Resolution.meaning_extend (h : Extends table table') (r : Resolution) :
    r.meaning p table'.nominals = r.meaning p table.nominals := by
  unfold Resolution.meaning
  rw [declared_extend h]

theorem First.extend {s s' : Storage} (h : First s idx) (ht : s.types <+: s'.types)
    (hidx : idx < s.types.length) : First s' idx := by
  refine ⟨h.1, fun other hbase hlt => ?_⟩
  rw [getElem?_longer ht hidx, getElem?_longer ht (Nat.lt_trans hlt hidx)]
  exact h.2 other hbase hlt

theorem PartsMade.extend {r : Resolution} (h : PartsMade table r) (he : Extends table table') :
    PartsMade table' r := by
  unfold PartsMade at h ⊢
  split
  · next heq =>
    simp only [heq] at h
    obtain ⟨k, pointee, hnode, hrow, hcall⟩ := h
    exact ⟨k, pointee, getElem?_mono he.storage.types hnode, getElem?_mono he.storage.refs hrow,
      he.resolutions.subset hcall⟩
  · next heq =>
    simp only [heq] at h
    intro hself isResult hpath hfit
    obtain ⟨entry, hmem, htype, hkind, hargs⟩ := h hself isResult hpath hfit
    exact ⟨entry, he.blessed.subset hmem, htype, hkind,
      hargs.imp fun _ _ hcall => he.resolutions.subset hcall⟩
  · trivial

/-- A usable node has its row. -/
theorem ref_lt {s : Storage} (h : s.usable idx = true) {isMut : Bool} {k : Nat}
    (hnode : s.types[idx]? = some ⟨referenceTag isMut, k⟩) : k < s.refTypes.length := by
  obtain ⟨node, hnode', hread⟩ := Storage.usable_iff.1 h
  cases hnode.symm.trans hnode'
  unfold Storage.readable at hread
  cases isMut <;> simpa [referenceTag] using hread

theorem tuple_lt {s : Storage} (h : s.usable idx = true) {k : Nat}
    (hnode : s.types[idx]? = some ⟨.tuple, k⟩) : k < s.tupleTypes.length := by
  obtain ⟨node, hnode', hread⟩ := Storage.usable_iff.1 h
  cases hnode.symm.trans hnode'
  unfold Storage.readable at hread
  simpa using hread

/-- **Types stay apart** in later tables. -/
theorem Apart.extend {s s' : Storage} {other : TypeIdx} (h : Apart s other m idx)
    (he : s.Extends s') (hc : s.Closed) (hother : s.usable other = true)
    (hidx : s.usable idx = true) : Apart s' other m idx := by
  intro hfree
  have h := h hfree
  have hnode {i : TypeIdx} (hi : s.usable i = true) : s'.types[i]? = s.types[i]? :=
    getElem?_longer he.types (Storage.usable_lt hi)
  cases m with
  | ref isMut pointee =>
    intro k k' row row' hne hk hrow hk' hrow'
    rw [hnode hother] at hk
    rw [hnode hidx] at hk'
    rw [getElem?_longer he.refs (ref_lt hother hk)] at hrow
    rw [getElem?_longer he.refs (ref_lt hidx hk')] at hrow'
    exact h k k' row row' hne hk hrow hk' hrow'
  | tuple elements =>
    intro k k' row row' hne hk hrow hk' hrow' slot hslot part hpart
    rw [hnode hother] at hk
    rw [hnode hidx] at hk'
    rw [getElem?_longer he.tuples (tuple_lt hother hk)] at hrow
    rw [getElem?_longer he.tuples (tuple_lt hidx hk')] at hrow'
    have hlt {row : TupleType} (hrow : row ∈ s.tupleTypes) {slot : TypeIdx}
        (hslot : slot ∈ row.elements.toList) : s'.types[slot]? = s.types[slot]? :=
      getElem?_longer he.types ((hc.tuples row hrow).lt hslot)
    rw [hlt (List.mem_of_getElem? hrow) hslot,
      hlt (List.mem_of_getElem? hrow') (List.of_mem_zip hpart).2]
    exact h k k' row row' hne hk hrow hk' hrow' slot hslot part hpart
  | node | marker | nominal | option | result => trivial

theorem Told.extend (h : Told p table) (hs : Sound p table) (he : Extends table table')
    (hm : Moved known n table table') (hr : table'.resolutions = table.resolutions) :
    Told p table' where
  shared r hmem hfree := by
    rw [hr] at hmem
    rw [r.meaning_extend he] at hfree ⊢
    exact hm.kept _ _ _ (h.shared r hmem hfree)
  fresh := by
    rw [hr]
    refine h.fresh.imp fun {r r'} hlt hfree => hlt ?_
    rwa [r'.meaning_extend he] at hfree
  usable r hmem := he.storage.usable (h.usable r (hr ▸ hmem))
  first r hmem hfree := by
    rw [hr] at hmem
    rw [r.meaning_extend he] at hfree
    exact (h.first r hmem hfree).extend he.storage.types (hs.resolutions r hmem).1
  built r hmem := (h.built r (hr ▸ hmem)).extend he
  apart := by
    rw [hr]
    refine h.apart.imp_of_mem fun {r r'} hmem hmem' hap => ?_
    rw [r'.meaning_extend he]
    exact hap.extend he.storage hs.closed (h.usable r hmem) (h.usable r' hmem')

variable {st : CheckState}

/-- A program of the checker that keeps the tables tidy runs in the larger frame too. -/
theorem share {α : Type} {m : CheckM α} {Q Q' : α → CheckState → Prop}
    (h : Runs (frame p) m st Q)
    (hq : ∀ a st', m st = some (a, st') → (frame p).inv st' → Grows st.table st'.table →
      Q a st' → Tidy st'.table ∧ Told p st'.table ∧ Moved known n st.table st'.table ∧ Q' a st') :
    Runs (sharing p known n) m st Q' :=
  h.reframe fun a st' hrun hs hg ha => by
    obtain ⟨htidy, htold, hmoved, ha'⟩ := hq a st' hrun hs hg ha
    exact ⟨⟨hs, htidy, htold⟩, ⟨hg, hmoved⟩, ha'⟩

/-- A run with a higher bound and less that is known. -/
theorem widened {α : Type} {m : CheckM α} {Q : α → CheckState → Prop} (hn : n ≤ n')
    (hk : ∀ i, known' i → known i) (h : Runs (sharing p known' n') m st Q) :
    Runs (sharing p known n) m st fun a st' => Q a st' ∧ Moved known' n' st.table st'.table :=
  h.reframe fun _ _ _ hs hr ha => ⟨hs, ⟨hr.1, hr.2.weaken hn hk⟩, ha, hr.2⟩

/-- A program that leaves the table alone. -/
theorem share_same {α : Type} {m : CheckM α} (hs : (sharing p known n).inv st)
    (h : Runs (frame p) m st fun _ st' => st'.table = st.table) :
    Runs (sharing p known n) m st fun _ st' => st'.table = st.table :=
  share h fun _ st' _ _ _ htable => by
    refine ⟨?_, ?_, ?_, htable⟩ <;> rw [htable]
    · exact hs.2.1
    · exact hs.2.2
    · exact .refl ..

/-- What a step adds: references, arguments and copies of types that were there, and slots for
tuples. -/
structure Adds (known : TypeIdx → Prop) (n : Nat) (table table' : Table) : Prop
    extends Later table table' where
  rows : Rowed table'.storage
  refs : ∀ row ∈ table'.storage.refTypes, row ∈ table.storage.refTypes ∨
    row.pointee < table.storage.types.length ∧
      (n ≤ row.pointee ∨ Shared known table' row.pointee)
  args : ∀ entry ∈ table'.blessed, entry ∈ table.blessed ∨ ∀ arg ∈ entry.args,
    arg < table.storage.types.length ∧ (n ≤ arg ∨ Shared known table' arg)
  slots : ∀ row ∈ table'.storage.tupleTypes, row ∈ table.storage.tupleTypes ∨
    ∀ slot ∈ row.elements.toList, kPrimitiveTypeCount + 1 ≤ slot ∧ n ≤ slot
  copies : ∀ copy idx, table.storage.types.length ≤ copy → kPrimitiveTypeCount + 1 ≤ idx →
    idx < table.storage.types.length → table'.storage.types[copy]? = table'.storage.types[idx]? →
    ∃ origin < table.storage.types.length,
      table'.storage.types[origin]? = table'.storage.types[idx]? ∧
      (n ≤ origin ∨ Shared known table' origin)
  distinct : Distinct table'

theorem Adds.tidy (ht : Tidy table) (h : Adds known n table table') : Tidy table' where
  base := Nat.le_trans ht.base h.storage.types.length_le
  rows := h.rows
  refs row hrow := by
    refine Nat.lt_of_lt_of_le ?_ h.storage.types.length_le
    exact (h.refs row hrow).elim (ht.refs row) And.left
  args entry hentry arg harg := by
    refine Nat.lt_of_lt_of_le ?_ h.storage.types.length_le
    exact (h.args entry hentry).elim (fun hold => ht.args entry hold arg harg) fun hnew =>
      (hnew arg harg).1
  below idx isMut k row hbase hnode hrow := by
    rcases Nat.lt_or_ge idx table.storage.types.length with hlt | hge
    · -- an old node has an old row
      rw [getElem?_longer h.storage.types hlt] at hnode
      have hread := ht.rows _ (mem_drop_base hbase hnode)
      have hk := ref_lt (Storage.usable_iff.2 ⟨_, hnode, hread⟩) hnode
      rw [getElem?_longer h.storage.refs hk] at hrow
      exact ht.below idx isMut k row hbase hnode hrow
    · refine Nat.lt_of_lt_of_le ?_ hge
      exact (h.refs row (List.mem_of_getElem? hrow)).elim (ht.refs row) And.left
  slots row hrow slot hslot :=
    (h.slots row hrow).elim (fun hold => ht.slots row hold slot hslot) fun hnew =>
      (hnew slot hslot).1
  distinct := h.distinct

theorem Adds.moved (ht : Tidy table) (h : Adds known n table table') :
    Moved known n table table' where
  types := h.storage.types
  kept _ _ _ hm := hm.mono ht h.toExtends
  old _ _ _ hidx hm := hm.reflect ht h.toLater hidx
  refs row hrow := (h.refs row hrow).imp id And.right
  args entry hentry := (h.args entry hentry).imp id fun hnew arg harg => (hnew arg harg).2
  slots row hrow := (h.slots row hrow).imp id fun hnew slot hslot => (hnew slot hslot).2
  copies := h.copies

/-! ## Builder steps -/

theorem Rowed.append {s s' : Storage} (h : Rowed s) (he : s.Extends s') {nodes : List TypeNode}
    (ht : s'.types = s.types ++ nodes) (hnodes : ∀ node ∈ nodes, s'.readable node = true) :
    Rowed s' := by
  intro node hnode
  rw [ht, List.drop_append] at hnode
  rcases List.mem_append.1 hnode with hnode | hnode
  · exact he.readable (h node hnode)
  · exact hnodes node (List.mem_of_mem_drop hnode)

theorem Sound.started_lt (h : Sound p table) {entry : NominalEntry} (he : entry ∈ table.nominals)
    (hs : entry.started = true) : entry.type < table.storage.types.length := by
  obtain ⟨k, hk⟩ := h.entries entry he hs
  exact (List.getElem?_eq_some_iff.1 hk).1

theorem Sound.instance_lt (h : Sound p table) {entry : BlessedEntry} (he : entry ∈ table.blessed) :
    entry.type < table.storage.types.length := by
  obtain ⟨k, hk⟩ := h.blessed entry he
  exact (List.getElem?_eq_some_iff.1 hk).1

/-- With the same nominals and instances, distinct nodes stay distinct. -/
theorem Distinct.extend (h : Distinct table) (hs : Sound p table)
    (ht : table.storage.types <+: table'.storage.types)
    (hnominals : table'.nominals = table.nominals) (hblessed : table'.blessed = table.blessed) :
    Distinct table' := by
  have hinst {inst : BlessedEntry} (h : inst ∈ table.blessed) :
      table'.storage.types[inst.type]? = table.storage.types[inst.type]? :=
    getElem?_longer ht (hs.instance_lt h)
  refine ⟨?_, ?_⟩
  · rw [hnominals, hblessed]
    intro entry hentry hstarted inst hmem
    rw [getElem?_longer ht (hs.started_lt hentry hstarted), hinst hmem]
    exact h.apart entry hentry hstarted inst hmem
  · rw [hblessed]
    refine h.instances.imp_of_mem fun {inst inst'} hmem hmem' hne => ?_
    rw [hinst hmem, hinst hmem']
    exact hne

/-- What a step of the builder adds to the tables. -/
structure Supplies (known : TypeIdx → Prop) (n : Nat) (table : Table) (s : Storage) : Prop where
  rows : Rowed s
  refs : ∀ row ∈ s.refTypes, row ∈ table.storage.refTypes ∨
    row.pointee < table.storage.types.length ∧
      (n ≤ row.pointee ∨ Shared known { table with storage := s } row.pointee)
  slots : ∀ row ∈ s.tupleTypes, row ∈ table.storage.tupleTypes ∨
    ∀ slot ∈ row.elements.toList, kPrimitiveTypeCount + 1 ≤ slot ∧ n ≤ slot
  copies : ∀ copy idx, table.storage.types.length ≤ copy → kPrimitiveTypeCount + 1 ≤ idx →
    idx < table.storage.types.length → s.types[copy]? = s.types[idx]? →
    ∃ origin < table.storage.types.length, s.types[origin]? = s.types[idx]? ∧
      (n ≤ origin ∨ Shared known { table with storage := s } origin)

/-- No new node. -/
theorem supplies_same {s : Storage} (htypes : s.types = table.storage.types)
    (hrefs : s.refTypes = table.storage.refTypes)
    (htuples : s.tupleTypes = table.storage.tupleTypes) (hrows : Rowed s) :
    Supplies known n table s where
  rows := hrows
  refs _ hrow := .inl (hrefs ▸ hrow)
  slots _ hrow := .inl (htuples ▸ hrow)
  copies _ _ hcopy _ hidx heq := absurd (htypes ▸ heq) (no_copy hcopy hidx)

/-- A step of the builder: what it needs beyond the smaller frame is rows for the new nodes, and
where references, slots and copies come from. -/
theorem build_share {α : Type} {m : Build α} {Q : α → CheckState → Prop}
    (hs : (sharing p known n).inv st) (h : Runs (frame p) (build m) st Q)
    (hgrow : ∀ a s, m st.table.storage = some (a, s) → st.table.storage.Extends s →
      Supplies known n st.table s) :
    Runs (sharing p known n) (build m) st fun a st' => Q a st' ∧
      ∃ s, m st.table.storage = some (a, s) ∧ st'.table = { st.table with storage := s } := by
  refine share h fun a st' hrun hs' hg ha => ?_
  obtain ⟨⟨b, s⟩, hm, heq⟩ := Option.bind_eq_some_iff.1 hrun
  cases heq
  have hsup := hgrow a s hm hg.storage
  have hadds : Adds known n st.table { st.table with storage := s } :=
    { hg.toExtends with
      started := fun e old new ho hn hst => .inl (Option.some.inj (ho.symm.trans hn) ▸ hst)
      instances := fun _ h => .inl h
      rows := hsup.rows
      refs := hsup.refs
      args := fun _ h => .inl h
      slots := hsup.slots
      copies := hsup.copies
      distinct := hs.2.1.distinct.extend hs.1.1 hg.storage.types rfl rfl }
  have hmoved := hadds.moved hs.2.1
  exact ⟨hadds.tidy hs.2.1, hs.2.2.extend hs.1.1 hg.toExtends hmoved rfl, hmoved, ha, s, hm, rfl⟩

/-- A node that has no row yet is new. -/
theorem Rowed.unread {s : Storage} (h : Rowed s) {node : TypeNode}
    (hread : s.readable node = false) :
    ∀ old ∈ s.types.drop (kPrimitiveTypeCount + 1), old ≠ node := by
  rintro old hold rfl
  rw [h old hold] at hread
  cases hread

/-- A new node is a copy of none. -/
theorem no_copy_pushed {types : List TypeNode} {node : TypeNode}
    (hnew : ∀ old ∈ types.drop (kPrimitiveTypeCount + 1), old ≠ node) {copy : TypeIdx}
    (hcopy : types.length ≤ copy) (hbase : kPrimitiveTypeCount + 1 ≤ idx)
    (hidx : idx < types.length) : (types ++ [node])[copy]? ≠ (types ++ [node])[idx]? := by
  intro heq
  rw [List.getElem?_append_left hidx, List.getElem?_eq_getElem hidx] at heq
  rcases getElem?_concat_cases heq with hold | ⟨-, hnode⟩
  · exact absurd (List.getElem?_eq_some_iff.1 hold).1 (Nat.not_lt.2 hcopy)
  · exact hnew _ (mem_drop_base hbase (List.getElem?_eq_getElem hidx)) hnode

/-- What a call returns: where it lands, that a new index is the last of the history, and that the
new type shares none of its parts. -/
structure Arrives (known : TypeIdx → Prop) (n : Nat) (table : Table) (m : Meaning)
    (idx : TypeIdx) : Prop extends Lands known n table m idx where
  newest : m.tupleFree = false → ∀ r ∈ table.resolutions, r.idx < idx
  apart : ∀ other, Apart table.storage other m idx

theorem Interned.arrives (h : Interned known table m idx) : Arrives known n table m idx where
  shared _ := h
  fresh hfree := by
    rw [h.tupleFree] at hfree
    cases hfree
  newest hfree := by
    rw [h.tupleFree] at hfree
    cases hfree
  apart _ hfree := by
    rw [h.tupleFree] at hfree
    cases hfree

theorem markerType_cases {s s' : Storage} {tag : TypeTag}
    (h : StorageBuilder.markerType tag s = some (idx, s')) :
    (markerSlot s tag = some idx ∧ s' = s) ∨
      (markerSlot s tag = none ∧ idx = s.types.length ∧
        s' = { s with types := s.types ++ [⟨tag, 0⟩] }) := by
  unfold StorageBuilder.markerType at h
  split at h <;> cases h
  · exact .inl ⟨‹_›, rfl⟩
  · exact .inr ⟨‹_›, rfl, rfl⟩

theorem markerType_shares {tag : TypeTag} (ht : tag = .never ∨ tag = .error)
    (hs : (sharing p known n).inv st) :
    Runs (sharing p known n) (build (StorageBuilder.markerType tag)) st fun idx st' =>
      Interned known st'.table (.marker tag) idx := by
  refine (build_share hs (markerType_steps ht hs.1) fun a s hrun he => ?_).mono
    fun idx st' hs' hg' ⟨_, s, hrun, htable⟩ => ?_
  · rcases markerType_cases hrun with ⟨-, rfl⟩ | ⟨hslot, -, rfl⟩
    · exact supplies_same rfl rfl rfl hs.2.1.rows
    · refine ⟨hs.2.1.rows.append he rfl ?_, fun _ h => .inl h, fun _ h => .inl h, ?_⟩
      · intro node hnode
        rw [List.mem_singleton.1 hnode]
        rcases ht with rfl | rfl <;> rfl
      · intro copy idx hcopy hbase hidx heq
        refine absurd heq (no_copy_pushed (fun old hold hsame => ?_) hcopy hbase hidx)
        have hnone := List.findIdx?_eq_none_iff.1 (Option.map_eq_none_iff.1 hslot) old hold
        simp [hsame] at hnone
  · rw [htable]
    refine .marker ht ?_
    rcases markerType_cases hrun with ⟨hslot, rfl⟩ | ⟨hslot, rfl, rfl⟩
    · exact hslot
    · exact scan_pushed rfl hs.2.1.base (fun _ _ => rfl) hslot (decide_eq_true rfl)

theorem errorType_shares (hs : (sharing p known n).inv st) :
    Runs (sharing p known n) errorType st fun idx st' =>
      Interned known st'.table (.marker .error) idx :=
  markerType_shares (.inr rfl) hs

/-- No primitive is a nominal or a tuple. -/
theorem Sound.primitive_ne (h : Sound p table) (hlt : idx < kPrimitiveTypeCount + 1)
    {tag : TypeTag} {k : Nat} (htag : tag = .struct ∨ tag = .enum ∨ tag = .tuple) :
    table.storage.types[idx]? ≠ some ⟨tag, k⟩ := by
  intro hidx
  have htags : ∀ node ∈ internPrimitives, node.tag ≠ .struct ∧ node.tag ≠ .enum ∧
      node.tag ≠ .tuple := by decide
  have hprim : internPrimitives[idx]? = some ⟨tag, k⟩ := by
    rw [← hidx]
    exact (getElem?_longer h.closed.prims hlt).symm
  obtain ⟨hstruct, henum, htuple⟩ := htags _ (List.mem_of_getElem? hprim)
  exact htag.elim hstruct fun htag => htag.elim henum htuple

/-- A primitive has the index of a type only where it is given. -/
theorem Interned.primitive (h : Sound p table) (hm : Interned known table m idx)
    (hlt : idx < kPrimitiveTypeCount + 1) : known idx := by
  cases hm with
  | node h => exact h
  | marker _ hslot | empty hslot | ref _ hslot =>
    exact absurd hlt (Nat.not_lt.2 (scan_base hslot))
  | @nominal e entry he hs =>
    obtain ⟨k, hk⟩ := h.entries entry (List.mem_of_getElem? he) hs
    refine absurd hk (h.primitive_ne hlt ?_)
    cases entry.item with
    | struct => exact .inl rfl
    | enum => exact .inr (.inl rfl)
  | option _ hslot | result _ _ hslot =>
    obtain ⟨k, hk⟩ := h.blessed _ (blessedSlot_some hslot).1
    exact absurd hk (h.primitive_ne hlt (.inr (.inl rfl)))

/-- **A new node is loose** when its shape holds something that is not shared. -/
theorem loose_pushed (h : Sound p table) (htidy : Tidy table)
    (hk : ∀ i, known i → table.storage.usable i = true) {tag : TypeTag} {k : Nat}
    (hread : table.storage.readable ⟨tag, k⟩ = false)
    (ht : table'.storage.types = table.storage.types ++ [⟨tag, k⟩])
    (hnominals : table'.nominals = table.nominals) (hmarker : tag ≠ .never ∧ tag ≠ .error)
    (hrefs : ∀ row ∈ table'.storage.refTypes, row.pointee < table.storage.types.length)
    (hargs : ∀ entry ∈ table'.blessed, ∀ arg ∈ entry.args, arg < table.storage.types.length)
    (hslots : ∀ row ∈ table'.storage.tupleTypes, row.elements.Within table.storage.types.length)
    (hprims : ∀ other < kPrimitiveTypeCount + 1, table.storage.types[other]? = some ⟨tag, k⟩ →
      ¬ Shared known table' other)
    (htuple : tag = .tuple → ∀ row, table'.storage.tupleTypes[k]? = some row →
      row.elements.toList ≠ [])
    (hpointee : ∀ isMut, tag = referenceTag isMut → ∀ row, table'.storage.refTypes[k]? = some row →
      ¬ Shared known table' row.pointee)
    (hblessed : ∀ entry ∈ table'.blessed, entry ∈ table.blessed ∨
      ∃ arg ∈ entry.args, ¬ Shared known table' arg) :
    Loose known table' table.storage.types.length where
  lt := by simp [ht]
  base := htidy.base
  refs row hrow := Nat.ne_of_lt (hrefs row hrow)
  args entry hentry hmem := Nat.lt_irrefl _ (hargs entry hentry _ hmem)
  slots row hrow hmem := Nat.lt_irrefl _ ((hslots row hrow).lt hmem)
  alone other hne heq := by
    rw [ht, List.getElem?_concat_length] at heq
    have hold := (getElem?_concat_cases heq).resolve_right fun hend => hne hend.1
    rcases Nat.lt_or_ge other (kPrimitiveTypeCount + 1) with hlt | hge
    · exact ⟨hlt, hprims other hlt hold⟩
    · exact absurd rfl (htidy.rows.unread hread _ (mem_drop_base hge hold))
  unshared := by
    refine not_shared (fun i hi => Storage.usable_lt (hk i hi))
      (fun entry he hst => h.started_lt (hnominals ▸ he) hst)
      (by rw [ht, List.getElem?_concat_length]) hmarker htuple hpointee fun entry he heq => ?_
    refine (hblessed entry he).resolve_left fun hold => ?_
    exact absurd heq (Nat.ne_of_lt (h.instance_lt hold))

theorem extends_storage {s : Storage} (h : table.storage.Extends s) :
    Extends table { table with storage := s } :=
  have hg : Grows table { table with storage := s } :=
    .of_nominals h rfl List.prefix_rfl List.prefix_rfl
  hg.toExtends

theorem referenceType_cases {s s' : Storage} {isMut : Bool} {pointee : TypeIdx}
    (h : StorageBuilder.referenceType pointee isMut s = some (idx, s')) :
    (refSlot s isMut pointee = some idx ∧ s' = s) ∨
      (refSlot s isMut pointee = none ∧ idx = s.types.length ∧ s' = { s with
        types := s.types ++ [⟨referenceTag isMut, s.refTypes.length⟩]
        refTypes := s.refTypes ++ [⟨pointee⟩] }) := by
  unfold StorageBuilder.referenceType at h
  dsimp only at h
  split at h <;> cases h
  · exact .inl ⟨‹_›, rfl⟩
  · exact .inr ⟨‹_›, rfl, rfl⟩

theorem readable_ref {s : Storage} {isMut : Bool} {k : Nat} (hk : k < s.refTypes.length) :
    s.readable ⟨referenceTag isMut, k⟩ = true := by
  cases isMut <;> exact decide_eq_true hk

theorem unread_ref (s : Storage) (isMut : Bool) :
    s.readable ⟨referenceTag isMut, s.refTypes.length⟩ = false := by
  cases isMut <;> exact decide_eq_false (Nat.lt_irrefl _)

/-- A reference to a type of the table keeps what interning needs. -/
theorem referenceType_grows {pointee : TypeIdx} {isMut : Bool} (hs : (sharing p known n).inv st)
    (hlt : pointee < st.table.storage.types.length)
    (hpointee : n ≤ pointee ∨ Shared known st.table pointee) :
    Runs (sharing p known n) (build (StorageBuilder.referenceType pointee isMut)) st fun idx st' =>
      ∃ s, StorageBuilder.referenceType pointee isMut st.table.storage = some (idx, s) ∧
        st'.table = { st.table with storage := s } := by
  refine (build_share hs (referenceType_steps hs.1) fun a s hrun he => ?_).mono
    fun _ _ _ _ h => h.2
  rcases referenceType_cases hrun with ⟨-, rfl⟩ | ⟨-, -, rfl⟩
  · exact supplies_same rfl rfl rfl hs.2.1.rows
  · refine ⟨hs.2.1.rows.append he rfl ?_, fun row hrow => ?_, fun _ h => .inl h, ?_⟩
    · intro node hnode
      rw [List.mem_singleton.1 hnode]
      exact readable_ref (by simp)
    · rcases List.mem_append.1 hrow with hrow | hrow
      · exact .inl hrow
      · rw [List.mem_singleton.1 hrow]
        exact .inr ⟨hlt, hpointee.imp id fun hshared =>
          hshared.imp fun _ hm => hm.mono hs.2.1 (extends_storage he)⟩
    · intro copy idx hcopy hbase hidx heq
      exact absurd heq (no_copy_pushed (hs.2.1.rows.unread (unread_ref _ _)) hcopy hbase hidx)

/-- **A reference lands where its pointee lets it.** -/
theorem referenceType_shares {pointee : TypeIdx} {isMut : Bool} (hs : (sharing p known n).inv st)
    (hk : ∀ i, known i → st.table.storage.usable i = true)
    (hn : n ≤ st.table.storage.types.length) (hlt : pointee < st.table.storage.types.length)
    (hl : Lands known n st.table m pointee) :
    Runs (sharing p known n) (build (StorageBuilder.referenceType pointee isMut)) st
      fun idx st' => Arrives known n st'.table (.ref isMut m) idx ∧
        ∃ k, st'.table.storage.types[idx]? = some ⟨referenceTag isMut, k⟩ ∧
          st'.table.storage.refTypes[k]? = some ⟨pointee⟩ := by
  refine (referenceType_grows hs hlt hl.shares).mono fun idx st' hs' hr hbuilt => ?_
  obtain ⟨s, hrun, htable⟩ := hbuilt
  rcases referenceType_cases hrun with ⟨hslot, rfl⟩ | ⟨hslot, rfl, rfl⟩
  · rw [htable]
    refine ⟨?_, refSlot_some hslot⟩
    cases hfree : m.tupleFree with
    | true => exact (Interned.ref (hl.shared hfree) hslot).arrives
    | false =>
      -- a loose type has no reference to it
      obtain ⟨k, -, hrow⟩ := refSlot_some hslot
      exact absurd rfl ((hl.fresh hfree).2.refs _ (List.mem_of_getElem? hrow))
  · have hkept : Moved known n st.table st'.table := hr.2
    rw [htable] at hkept ⊢
    refine ⟨?_, _, List.getElem?_concat_length, List.getElem?_concat_length⟩
    cases hfree : m.tupleFree with
    | true =>
      refine (Interned.ref (hkept.kept _ _ _ (hl.shared hfree)) ?_).arrives
      refine scan_pushed rfl hs.2.1.base
        (refFits_old (List.prefix_append _ _) hs.2.1.rows isMut pointee) hslot ?_
      simp
    | false =>
      obtain ⟨-, hloose⟩ := hl.fresh hfree
      have hrefs : ∀ row ∈ st.table.storage.refTypes ++ [⟨pointee⟩],
          row.pointee < st.table.storage.types.length := by
        intro row hrow
        rcases List.mem_append.1 hrow with hrow | hrow
        · exact hs.2.1.refs row hrow
        · rw [List.mem_singleton.1 hrow]
          exact hlt
      refine ⟨⟨fun h => absurd (hfree.symm.trans h) Bool.false_ne_true, fun _ => ⟨hn, ?_⟩⟩,
        fun _ r hmem => (hs.1.1.resolutions r hmem).1, fun other _ => ?_⟩
      · refine loose_pushed hs.1.1 hs.2.1 hk (unread_ref _ _) rfl rfl
          (by cases isMut <;> simp [referenceTag]) hrefs hs.2.1.args hs.1.1.closed.tuples
          (fun other hprim hnode => ?_) (by cases isMut <;> simp [referenceTag])
          (fun _ _ row hrow => ?_) fun _ h => .inl h
        · -- the primitive reference is given only where there are references
          rintro ⟨m', hm'⟩
          have hold := Nat.lt_of_lt_of_le hprim hs.2.1.base
          have hgiven := (hkept.old _ _ _ hold hm').primitive hs.1.1 hprim
          exact Nat.lt_irrefl _ (ref_lt (hk other hgiven) hnode)
        · rw [List.getElem?_concat_length] at hrow
          obtain rfl := Option.some.inj hrow
          rintro ⟨m', hm'⟩
          exact hloose.unshared ⟨m', hkept.old _ _ _ hlt hm'⟩
      · intro k k' row row' hne _ hrow hnode' hrow'
        rw [List.getElem?_concat_length] at hnode'
        cases hnode'
        rw [List.getElem?_concat_length] at hrow'
        cases hrow'
        rcases getElem?_concat_cases hrow with hold | ⟨hend, -⟩
        · exact hloose.refs row (List.mem_of_getElem? hold)
        · exact absurd hend hne

theorem copySeq_shares {types : List TypeIdx} (hs : (sharing p known n).inv st)
    (hu : ∀ i ∈ types, st.table.storage.usable i = true)
    (hopen : ∀ i ∈ types, n ≤ i ∨ Shared known st.table i) :
    Runs (sharing p known n) (build (StorageBuilder.copySeq types)) st fun range st' =>
      range.Within st'.table.storage.types.length ∧
      range.toList = List.range' st.table.storage.types.length types.length ∧
      types.map (st.table.storage.types[·]?) = range.toList.map (st'.table.storage.types[·]?) ∧
      st'.table.storage.tupleTypes = st.table.storage.tupleTypes ∧
      st'.table.storage.enumVariantTypes = st.table.storage.enumVariantTypes := by
  obtain ⟨range, nodes, hrun, hnodes, -, hlist⟩ :=
    StorageBuilder.copySeq_eq fun i hi => Storage.usable_lt (hu i hi)
  have hlen : nodes.length = types.length := by
    simpa using (congrArg List.length hnodes).symm
  have horigin {node : TypeNode} (hnode : node ∈ nodes) :
      ∃ i ∈ types, st.table.storage.types[i]? = some node := by
    have hmem : some node ∈ types.map (st.table.storage.types[·]?) :=
      hnodes ▸ List.mem_map_of_mem hnode
    exact List.mem_map.1 hmem
  refine (build_share hs (copySeq_steps hs.1 hu) fun a s hrun' he => ?_).mono
    fun range' st' hs' hr ⟨hcopied, s, hrun', htable⟩ => ?_
  · cases hrun.symm.trans hrun'
    refine ⟨hs.2.1.rows.append he rfl fun node hnode => ?_, fun _ h => .inl h, fun _ h => .inl h,
      fun copy idx hcopy hbase hidx heq => ?_⟩
    · obtain ⟨i, hi, hcopy⟩ := horigin hnode
      obtain ⟨other, hother, hread⟩ := Storage.usable_iff.1 (hu i hi)
      cases hcopy.symm.trans hother
      exact he.readable hread
    · -- a copy of an old node is a copy of one of the types
      have hold : (StorageBuilder.withTypes st.table.storage nodes).types[idx]? =
          some st.table.storage.types[idx] :=
        getElem?_mono he.types (List.getElem?_eq_getElem hidx)
      have hmem : st.table.storage.types[idx] ∈ nodes := by
        rw [hold, StorageBuilder.withTypes, List.getElem?_append_right hcopy] at heq
        exact List.mem_of_getElem? heq
      obtain ⟨i, hi, hnode⟩ := horigin hmem
      refine ⟨i, Storage.usable_lt (hu i hi), (getElem?_mono he.types hnode).trans hold.symm, ?_⟩
      exact (hopen i hi).imp id fun hshared =>
        hshared.imp fun _ hm => hm.mono hs.2.1 (extends_storage he)
  · cases hrun.symm.trans hrun'
    obtain ⟨nodes', hfrom, hto⟩ := hcopied.slots
    exact ⟨hcopied.within, by rw [hlist, hlen], hfrom.trans hto.symm, by rw [htable]; rfl,
      hcopied.variants⟩

theorem tupleType_cases {s s' : Storage} {elements : IdxRange}
    (h : StorageBuilder.tupleType elements s = some (idx, s')) :
    (tupleSlot s elements.toList = some idx ∧ s' = s) ∨
      (tupleSlot s elements.toList = none ∧ idx = s.types.length ∧ s' = { s with
        types := s.types ++ [⟨.tuple, s.tupleTypes.length⟩]
        tupleTypes := s.tupleTypes ++ [⟨elements⟩] }) := by
  unfold StorageBuilder.tupleType at h
  dsimp only at h
  split at h <;> cases h
  · exact .inl ⟨‹_›, rfl⟩
  · exact .inr ⟨‹_›, rfl, rfl⟩

theorem unread_tuple (s : Storage) : s.readable ⟨.tuple, s.tupleTypes.length⟩ = false :=
  decide_eq_false (Nat.lt_irrefl _)

theorem tupleType_grows {elements : IdxRange} (hs : (sharing p known n).inv st)
    (hw : elements.Within st.table.storage.types.length)
    (hslots : ∀ slot ∈ elements.toList, kPrimitiveTypeCount + 1 ≤ slot ∧ n ≤ slot) :
    Runs (sharing p known n) (build (StorageBuilder.tupleType elements)) st fun idx st' =>
      ∃ s, StorageBuilder.tupleType elements st.table.storage = some (idx, s) ∧
        st'.table = { st.table with storage := s } := by
  refine (build_share hs (tupleType_steps hs.1 hw) fun a s hrun he => ?_).mono
    fun _ _ _ _ h => h.2
  rcases tupleType_cases hrun with ⟨-, rfl⟩ | ⟨-, -, rfl⟩
  · exact supplies_same rfl rfl rfl hs.2.1.rows
  · refine ⟨hs.2.1.rows.append he rfl fun node hnode => ?_, fun _ h => .inl h, fun row hrow => ?_,
      fun copy idx hcopy hbase hidx heq => ?_⟩
    · rw [List.mem_singleton.1 hnode]
      simp [Storage.readable]
    · refine (List.mem_append.1 hrow).imp id fun hnew => ?_
      rw [List.mem_singleton.1 hnew]
      exact hslots
    · exact absurd heq (no_copy_pushed (hs.2.1.rows.unread (unread_tuple _)) hcopy hbase hidx)

/-- **A tuple with elements is a new type**: its slots are, so that no other tuple has them. -/
theorem tupleType_shares {elements : IdxRange} {ms : List Meaning}
    (hs : (sharing p known n).inv st) (hk : ∀ i, known i → st.table.storage.usable i = true)
    (hn : n ≤ st.table.storage.types.length)
    (hw : elements.Within st.table.storage.types.length)
    (hslots : ∀ slot ∈ elements.toList, kPrimitiveTypeCount + 1 ≤ slot ∧ n ≤ slot)
    (hlen : elements.toList.length = ms.length)
    (hnew : ∀ row ∈ st.table.storage.tupleTypes, ∀ slot ∈ row.elements.toList,
      ∀ part ∈ ms.zip elements.toList, slot ≠ part.2 ∧ (part.1.tupleFree = false →
        st.table.storage.types[slot]? ≠ st.table.storage.types[part.2]?)) :
    Runs (sharing p known n) (build (StorageBuilder.tupleType elements)) st
      fun idx st' => Arrives known n st'.table (.tuple ms) idx := by
  refine (tupleType_grows hs hw hslots).mono fun idx st' hs' hr ⟨s, hrun, htable⟩ => ?_
  rw [htable]
  cases ms with
  | nil =>
    have hempty : elements.toList = [] := List.length_eq_zero_iff.1 hlen
    refine (Interned.empty ?_).arrives
    rw [← hempty]
    rcases tupleType_cases hrun with ⟨hslot, rfl⟩ | ⟨hslot, rfl, rfl⟩
    · exact hslot
    · refine scan_pushed rfl hs.2.1.base
        (tupleFits_old (List.prefix_append _ _) hs.2.1.rows elements.toList) hslot ?_
      simp
  | cons m ms =>
    obtain ⟨slot, slots, hlist⟩ := List.exists_cons_of_length_eq_add_one hlen
    rcases tupleType_cases hrun with ⟨hslot, rfl⟩ | ⟨hslot, rfl, rfl⟩
    · obtain ⟨k, row, -, hrow, heq⟩ := tupleSlot_some hslot
      have hfirst := hnew row (List.mem_of_getElem? hrow) slot (by rw [heq, hlist]; simp) (m, slot)
        (by rw [hlist]; simp)
      exact absurd rfl hfirst.1
    · refine ⟨⟨nofun, fun _ => ⟨hn, ?_⟩⟩, fun _ r hmem => (hs.1.1.resolutions r hmem).1,
        fun other _ => ?_⟩
      · refine loose_pushed hs.1.1 hs.2.1 hk (unread_tuple _) rfl rfl (by simp) hs.2.1.refs
          hs.2.1.args (fun row hrow => ?_) (fun other hprim hnode => ?_) (fun _ row hrow => ?_)
          (fun isMut htag => by cases isMut <;> cases htag) fun _ h => .inl h
        · rcases List.mem_append.1 hrow with hrow | hrow
          · exact hs.1.1.closed.tuples row hrow
          · rw [List.mem_singleton.1 hrow]
            exact hw
        · exact absurd hnode (hs.1.1.primitive_ne hprim (.inr (.inr rfl)))
        · rw [List.getElem?_concat_length] at hrow
          obtain rfl := Option.some.inj hrow
          rw [hlist]
          simp
      · intro k k' row row' hne _ hrow hnode' hrow' slot' hslot' part hpart
        rw [List.getElem?_concat_length] at hnode'
        cases hnode'
        rw [List.getElem?_concat_length] at hrow'
        cases hrow'
        rcases getElem?_concat_cases hrow with hold | ⟨hend, -⟩
        · have hmem := List.mem_of_getElem? hold
          have hlt := (hs.1.1.closed.tuples row hmem).lt hslot'
          have hlt' := hw.lt (List.of_mem_zip hpart).2
          rw [List.getElem?_append_left hlt, List.getElem?_append_left hlt']
          exact hnew row hmem slot' hslot' part hpart
        · exact absurd hend hne

/-! ## `Result` and `Option` -/

theorem lift_eq {α : Type} {o : Option α} {a : α} (h : o = some a) :
    (liftM o : CheckM α) st = some (a, st) := by
  rw [h]
  rfl

theorem internBlessed_found {isResult : Bool} {args : List TypeIdx} {entry : BlessedEntry}
    (h : blessedSlot st.table.blessed isResult args = some entry) :
    internBlessed p isResult args st = some (entry.type, st) := by
  unfold blessedSlot at h
  unfold internBlessed
  rw [bind_of_eq (show (get : CheckM CheckState) st = some (st, st) from rfl)]
  simp only [h]
  rfl

theorem internBlessed_new {isResult : Bool} {args : List TypeIdx}
    (hfit : args.length = blessedArity isResult)
    (h : blessedSlot st.table.blessed isResult args = none) :
    ∃ s, internBlessed p isResult args st = some (st.table.storage.types.length,
        { st with table := { st.table with
          storage := s
          blessed := st.table.blessed ++
            [⟨isResult, args, st.table.storage.types.length⟩] } }) ∧
      s.types = st.table.storage.types ++ [⟨.enum, st.table.storage.enumTypes.length⟩] ∧
      s.readable ⟨.enum, st.table.storage.enumTypes.length⟩ = true ∧
      s.refTypes = st.table.storage.refTypes ∧ s.tupleTypes = st.table.storage.tupleTypes := by
  obtain ⟨first, payload, hfirst, hpayload⟩ : ∃ first payload, args[0]? = some first ∧
      secondPayload isResult args = some payload := by
    cases isResult with
    | true =>
      obtain ⟨ok, err, rfl⟩ := List.length_eq_two.1 hfit
      exact ⟨ok, _, rfl, rfl⟩
    | false =>
      obtain ⟨payload, rfl⟩ := List.length_eq_one_iff.1 hfit
      exact ⟨payload, _, rfl, rfl⟩
  have hempty (idx : EnumVariantTypeIdx) : SeqBuilder.empty.push idx = some ⟨idx, 1⟩ := by
    simp [SeqBuilder.push, SeqBuilder.empty]
  have hnext (rows : List EnumVariantType) (row : EnumVariantType) :
      SeqBuilder.push ⟨rows.length, 1⟩ (rows ++ [row]).length = some ⟨rows.length, 2⟩ := by
    simp [SeqBuilder.push]
  unfold blessedSlot at h
  unfold internBlessed
  rw [bind_of_eq (show (get : CheckM CheckState) st = some (st, st) from rfl)]
  simp only [h]
  rw [bind_of_eq (lift_eq hfirst), bind_of_eq (build_eq rfl), bind_of_eq (lift_eq (hempty _)),
    bind_of_eq (lift_eq hpayload), bind_of_eq (build_eq rfl)]
  rw [bind_of_eq (lift_eq (hnext _ _))]
  exact ⟨_, rfl, rfl, decide_eq_true (by simp), rfl, rfl⟩

theorem unread_enum (s : Storage) : s.readable ⟨.enum, s.enumTypes.length⟩ = false :=
  decide_eq_false (Nat.lt_irrefl _)

/-- A nominal, an enum or a tuple that has no row has no node. -/
theorem Sound.unmade (h : Sound p table) {tag : TypeTag} {k : Nat}
    (htag : tag = .struct ∨ tag = .enum ∨ tag = .tuple)
    (hread : table.storage.readable ⟨tag, k⟩ = false) : ⟨tag, k⟩ ∉ table.storage.types := by
  intro hmem
  obtain ⟨i, hnode⟩ := List.mem_iff_getElem?.1 hmem
  obtain ⟨node, hnode', hused⟩ := Storage.usable_iff.1 (h.usable_node hnode htag)
  cases hnode.symm.trans hnode'
  rw [hread] at hused
  cases hused

/-- A new instance has a new node. -/
theorem Distinct.instance (h : Distinct table) (hs : Sound p table) {inst : BlessedEntry}
    {node : TypeNode} (ht : table'.storage.types = table.storage.types ++ [node])
    (hnew : node ∉ table.storage.types) (hnominals : table'.nominals = table.nominals)
    (hblessed : table'.blessed = table.blessed ++ [inst])
    (htype : inst.type = table.storage.types.length) : Distinct table' := by
  have hold {i : TypeIdx} (hi : i < table.storage.types.length) :
      table'.storage.types[i]? = table.storage.types[i]? := by
    rw [ht, List.getElem?_append_left hi]
  have hlast : table'.storage.types[inst.type]? = some node := by
    rw [htype, ht, List.getElem?_concat_length]
  have hne {i : TypeIdx} (hi : i < table.storage.types.length) :
      table'.storage.types[i]? ≠ table'.storage.types[inst.type]? := by
    rw [hold hi, hlast]
    exact fun heq => hnew (List.mem_of_getElem? heq)
  refine ⟨?_, ?_⟩
  · rw [hnominals, hblessed]
    intro entry hentry hstarted other hother
    have hlt := hs.started_lt hentry hstarted
    rcases List.mem_append.1 hother with hother | hother
    · rw [hold hlt, hold (hs.instance_lt hother)]
      exact h.apart entry hentry hstarted other hother
    · rw [List.mem_singleton.1 hother]
      exact hne hlt
  · rw [hblessed]
    refine List.pairwise_append.2
      ⟨?_, List.pairwise_singleton .., fun other hother last hlast => ?_⟩
    · refine h.instances.imp_of_mem fun {a b} ha hb hab => ?_
      rw [hold (hs.instance_lt ha), hold (hs.instance_lt hb)]
      exact hab
    · rw [List.mem_singleton.1 hlast]
      exact hne (hs.instance_lt hother)

theorem interned_blessed {isResult : Bool} {ms : List Meaning} {args : List TypeIdx}
    {entry : BlessedEntry} (hfit : args.length = blessedArity isResult)
    (h : List.Forall₂ (Interned known table) ms args)
    (hslot : blessedSlot table.blessed isResult args = some entry) :
    Interned known table (blessedMeaning isResult ms) entry.type := by
  cases isResult with
  | true =>
    obtain ⟨ok, err, rfl⟩ := List.length_eq_two.1 hfit
    obtain ⟨m, ms, h₁, hrest, rfl⟩ := List.forall₂_cons_right_iff.1 h
    obtain ⟨m', ms, h₂, hnil, rfl⟩ := List.forall₂_cons_right_iff.1 hrest
    cases hnil
    exact .result h₁ h₂ hslot
  | false =>
    obtain ⟨payload, rfl⟩ := List.length_eq_one_iff.1 hfit
    obtain ⟨m, ms, h₁, hnil, rfl⟩ := List.forall₂_cons_right_iff.1 h
    cases hnil
    exact .option h₁ hslot

theorem tupleFree_blessed {isResult : Bool} {ms : List Meaning}
    (hfit : ms.length = blessedArity isResult) :
    (blessedMeaning isResult ms).tupleFree = ms.all Meaning.tupleFree := by
  cases isResult with
  | true =>
    obtain ⟨ok, err, rfl⟩ := List.length_eq_two.1 hfit
    simp [blessedMeaning, Meaning.tupleFree]
  | false =>
    obtain ⟨payload, rfl⟩ := List.length_eq_one_iff.1 hfit
    simp [blessedMeaning, Meaning.tupleFree]

theorem all_interned {ms : List Meaning} {args : List TypeIdx}
    (h : List.Forall₂ (Lands known n table) ms args) (hfree : ms.all Meaning.tupleFree = true) :
    List.Forall₂ (Interned known table) ms args := by
  induction h with
  | nil => exact .nil
  | cons hm _ ih =>
    rw [List.all_cons, Bool.and_eq_true] at hfree
    exact .cons (hm.shared hfree.1) (ih hfree.2)

theorem shares_of_mem {ms : List Meaning} {args : List TypeIdx}
    (h : List.Forall₂ (Lands known n table) ms args) :
    ∀ arg ∈ args, n ≤ arg ∨ Shared known table arg := by
  induction h with
  | nil => exact nofun
  | cons hm _ ih => exact List.forall_mem_cons.2 ⟨hm.shares, ih⟩

theorem exists_loose {ms : List Meaning} {args : List TypeIdx}
    (h : List.Forall₂ (Lands known n table) ms args) (hnot : ms.all Meaning.tupleFree = false) :
    ∃ arg ∈ args, Loose known table arg := by
  induction h with
  | nil => cases hnot
  | @cons m arg _ _ hm _ ih =>
    rw [List.all_cons] at hnot
    cases hfree : m.tupleFree with
    | true =>
      rw [hfree, Bool.true_and] at hnot
      obtain ⟨other, hmem, hloose⟩ := ih hnot
      exact ⟨other, List.mem_cons_of_mem _ hmem, hloose⟩
    | false => exact ⟨arg, List.mem_cons_self .., (hm.fresh hfree).2⟩

theorem apart_blessed {s : Storage} {other : TypeIdx} {isResult : Bool} {ms : List Meaning} :
    Apart s other (blessedMeaning isResult ms) idx := by
  unfold blessedMeaning
  split <;> exact fun _ => trivial

/-- **An instance of `Result` or `Option` lands where its arguments let it.** -/
theorem internBlessed_shares {isResult : Bool} {args : List TypeIdx} {ms : List Meaning}
    (hs : (sharing p known n).inv st) (hk : ∀ i, known i → st.table.storage.usable i = true)
    (hn : n ≤ st.table.storage.types.length) (hfit : args.length = blessedArity isResult)
    (hu : ∀ i ∈ args, st.table.storage.usable i = true)
    (hl : List.Forall₂ (Lands known n st.table) ms args) :
    Runs (sharing p known n) (internBlessed p isResult args) st
      fun idx st' => Arrives known n st'.table (blessedMeaning isResult ms) idx ∧
        ∃ entry ∈ st'.table.blessed, entry.type = idx ∧ entry.isResult = isResult ∧
          entry.args = args := by
  have hall := tupleFree_blessed (hl.length_eq.trans hfit)
  have hsteps := internBlessed_steps (p := p) hs.1 hfit hu
  cases hslot : blessedSlot st.table.blessed isResult args with
  | some entry =>
    have hfound := blessedSlot_some hslot
    refine ⟨_, _, internBlessed_found hslot, hs, (sharing p known n).refl st, ?_,
      entry, hfound.1, rfl, hfound.2⟩
    cases hfree : ms.all Meaning.tupleFree with
    | true => exact (interned_blessed hfit (all_interned hl hfree) hslot).arrives
    | false =>
      -- a loose type is no argument of an instance
      obtain ⟨arg, harg, hloose⟩ := exists_loose hl hfree
      obtain ⟨hmem, -, hargs⟩ := blessedSlot_some hslot
      exact absurd (hargs ▸ harg) (hloose.args entry hmem)
  | none =>
    obtain ⟨s, hrun, htypes, hread, hrefs, htuples⟩ := internBlessed_new (p := p) hfit hslot
    have hlt {arg : TypeIdx} (h : arg ∈ args) : arg < st.table.storage.types.length :=
      Storage.usable_lt (hu arg h)
    refine share hsteps fun idx st' hrun' hs' hg _ => ?_
    cases hrun.symm.trans hrun'
    let table' : Table := { st.table with
      storage := s
      blessed := st.table.blessed ++ [⟨isResult, args, st.table.storage.types.length⟩] }
    have hmem {entry : BlessedEntry} (h : entry ∈ table'.blessed) : entry ∈ st.table.blessed ∨
        entry = ⟨isResult, args, st.table.storage.types.length⟩ :=
      (List.mem_append.1 h).imp id List.mem_singleton.1
    have hadds : Adds known n st.table table' := { hg.toExtends with
      started := fun e old new ho hnew hst => .inl (Option.some.inj (ho.symm.trans hnew) ▸ hst)
      instances := fun entry h =>
        (hmem h).imp id fun heq => Nat.le_of_eq (congrArg BlessedEntry.type heq).symm
      rows := hs.2.1.rows.append hg.storage htypes
        fun node hnode => List.mem_singleton.1 hnode ▸ hread
      refs := fun row hrow => .inl (hrefs ▸ hrow)
      args := fun entry hentry => by
        refine (hmem hentry).imp id ?_
        rintro rfl arg harg
        exact ⟨hlt harg, (shares_of_mem hl arg harg).imp id fun hshared =>
          hshared.imp fun _ hm => hm.mono hs.2.1 hg.toExtends⟩
      slots := fun row hrow => .inl (htuples ▸ hrow)
      copies := fun copy idx hcopy hbase hidx heq => by
        have hnew := hs.2.1.rows.unread (unread_enum st.table.storage)
        exact absurd (htypes ▸ heq) (no_copy_pushed hnew hcopy hbase hidx)
      distinct := hs.2.1.distinct.instance hs.1.1 htypes
        (hs.1.1.unmade (.inr (.inl rfl)) (unread_enum _)) rfl rfl rfl }
    have hmoved := hadds.moved hs.2.1
    refine ⟨hadds.tidy hs.2.1, hs.2.2.extend hs.1.1 hg.toExtends hmoved rfl, hmoved, ?_,
      _, List.mem_append_right _ (List.mem_singleton_self _), rfl, rfl, rfl⟩
    cases hfree : ms.all Meaning.tupleFree with
    | true =>
      have hfind : blessedSlot table'.blessed isResult args =
          some ⟨isResult, args, st.table.storage.types.length⟩ := by
        unfold blessedSlot at hslot ⊢
        rw [List.find?_append, hslot, Option.none_or, List.find?_singleton]
        simp
      exact (interned_blessed hfit
        ((all_interned hl hfree).imp fun _ _ => hmoved.kept _ _ _) hfind).arrives
    | false =>
      obtain ⟨arg, harg, hloose⟩ := exists_loose hl hfree
      refine ⟨⟨fun h => absurd ((hall.trans hfree).symm.trans h) Bool.false_ne_true,
        fun _ => ⟨hn, ?_⟩⟩, fun _ r hr => (hs.1.1.resolutions r hr).1, fun _ => apart_blessed⟩
      refine loose_pushed hs.1.1 hs.2.1 hk (unread_enum _) htypes rfl ⟨nofun, nofun⟩
        (fun row hrow => hs.2.1.refs row (hrefs ▸ hrow)) (fun entry hentry => ?_)
        (fun row hrow => hs.1.1.closed.tuples row (htuples ▸ hrow))
        (fun other hprim hnode => absurd hnode (hs.1.1.primitive_ne hprim (.inr (.inl rfl)))) nofun
        (fun isMut htag => by cases isMut <;> cases htag) fun entry hentry => ?_
      · rcases hmem hentry with hold | rfl
        · exact hs.2.1.args entry hold
        · exact fun arg => hlt
      · refine (hmem hentry).imp id ?_
        rintro rfl
        exact ⟨arg, harg, fun ⟨m, hm⟩ => hloose.unshared ⟨m, hmoved.old _ _ _ (hlt harg) hm⟩⟩

/-! ## Resolving a type -/

/-- The history with one call more. -/
def withCall (table : Table) (r : Resolution) : Table :=
  { table with resolutions := table.resolutions ++ [r] }

theorem Told.record {r : Resolution} (h : Told p table) (he : Extends table (withCall table r))
    (hm : Moved (Given r.self) n table (withCall table r))
    (hu : table.storage.usable r.idx = true) (hb : PartsMade table r)
    (ha : Arrives (Given r.self) n table (r.meaning p table.nominals) r.idx) :
    Told p (withCall table r) where
  shared r' hmem hfree := by
    rw [r'.meaning_extend he] at hfree ⊢
    refine hm.kept _ _ _ ?_
    rcases List.mem_append.1 hmem with hmem | hmem
    · exact h.shared r' hmem hfree
    · obtain rfl := List.mem_singleton.1 hmem
      exact ha.shared hfree
  fresh := by
    refine List.pairwise_append.2 ⟨h.fresh, List.pairwise_singleton .., fun r' hr' r'' hr'' => ?_⟩
    rw [List.mem_singleton.1 hr'']
    exact fun hfree => ha.newest hfree r' hr'
  usable r' hmem := by
    rcases List.mem_append.1 hmem with hmem | hmem
    · exact h.usable r' hmem
    · obtain rfl := List.mem_singleton.1 hmem
      exact hu
  first r' hmem hfree := by
    rw [r'.meaning_extend he] at hfree
    rcases List.mem_append.1 hmem with hmem | hmem
    · exact h.first r' hmem hfree
    · obtain rfl := List.mem_singleton.1 hmem
      obtain ⟨-, hloose⟩ := ha.fresh hfree
      refine ⟨hloose.base, fun other hbase hlt heq => ?_⟩
      exact absurd (hloose.alone other (Nat.ne_of_lt hlt) heq).1 (Nat.not_lt.2 hbase)
  built r' hmem := by
    rcases List.mem_append.1 hmem with hmem | hmem
    · exact (h.built r' hmem).extend he
    · obtain rfl := List.mem_singleton.1 hmem
      exact hb.extend he
  apart := by
    refine List.pairwise_append.2 ⟨?_, List.pairwise_singleton .., fun r' hr' r'' hr'' => ?_⟩
    · exact h.apart.imp fun {r r'} hap => by rwa [r'.meaning_extend he]
    · rw [List.mem_singleton.1 hr'', r.meaning_extend he]
      exact ha.apart r'.idx

theorem given_usable {self : Option TypeIdx} (h : Sound p table)
    (hself : ∀ i, self = some i → table.storage.usable i = true) :
    ∀ i, Given self i → table.storage.usable i = true := by
  rintro i (hi | hi)
  · have hnamed : ∀ i ≤ primitiveIdx .str, ∃ node ∈ internPrimitives, primitiveIdx node.tag = i ∧
        node.data = 0 ∧ node.tag ≠ .ref ∧ node.tag ≠ .mutRef := by decide
    obtain ⟨⟨tag, k⟩, hmem, rfl, rfl, href⟩ := hnamed i hi
    exact h.usable_primitive tag hmem href
  · exact hself i hi

theorem report_shares {code : Nat} {span : Span} {message : String}
    (hs : (sharing p known n).inv st) (hc : code ≠ kAnalyzerRecursiveType) :
    Runs (sharing p known n) (report code span message) st fun _ st' => st'.table = st.table :=
  share_same hs (report_steps hs.1 hc)

/-- What is rejected is the error type. -/
theorem rejected_shares {code : Nat} {span : Span} {message : String}
    (hs : (sharing p known n).inv st) (hc : code ≠ kAnalyzerRecursiveType) :
    Runs (sharing p known n) (do report code span message; errorType) st fun idx st' =>
      Interned known st'.table (.marker .error) idx :=
  (report_shares hs hc).bind fun _ _ hs' _ _ => errorType_shares hs'

theorem resolveTypePath_shares {module : Nat} {path : Path} (hs : (sharing p known n).inv st) :
    Runs (sharing p known n) (resolveTypePath p module path) st fun target st' =>
      st'.table = st.table ∧ target = pathTarget p module path := by
  unfold resolveTypePath pathTarget
  cases path.segments.getLast? with
  | none => exact .pure hs ⟨rfl, rfl⟩
  | some last =>
    dsimp only
    cases walkModulePrefix p.tree module path "type" with
    | error message =>
      exact (report_shares hs codes_ne_recursive.1).bind fun _ _ hs' _ h => .pure hs' ⟨h, rfl⟩
    | ok target => exact .pure hs ⟨rfl, rfl⟩

theorem primitiveType_shares {self : Option TypeIdx} {kind : PrimitiveKind} {span : Span}
    (hs : (sharing p (Given self) n).inv st) :
    Runs (sharing p (Given self) n) (primitiveType p kind span) st fun idx st' =>
      Interned (Given self) st'.table (primitiveMeaning p kind) idx := by
  have hprim {tag : TypeTag} (ht : primitiveIdx tag ≤ primitiveIdx .str) :
      Runs (sharing p (Given self) n) (pure (primitiveIdx tag)) st fun idx st' =>
        Interned (Given self) st'.table (.node (primitiveIdx tag)) idx :=
    .pure hs (.node (.inl ht))
  unfold primitiveType primitiveMeaning
  cases kind with
  | i128 | u128 => exact rejected_shares hs codes_ne_recursive.2.2.2
  | isize | usize => cases p.width <;> exact hprim (by decide)
  | _ => exact hprim (by decide)

theorem selfType_shares {self : Option TypeIdx} {span : Span} {args : List Ty}
    (hs : (sharing p (Given self) n).inv st) :
    Runs (sharing p (Given self) n) (selfType span args self) st fun idx st' =>
      Interned (Given self) st'.table (selfMeaning args self) idx := by
  unfold selfType selfMeaning
  cases self with
  | none => exact rejected_shares hs codes_ne_recursive.1
  | some idx =>
    dsimp only
    split
    · exact .pure hs (.node (.inr rfl))
    · exact rejected_shares hs codes_ne_recursive.2.2.1

/-- What `resolve_type` is promised of `intern_nominal`: the index of the declaration, without a
step beyond the primitives. -/
def Names (p : Package) (intern : Nat → CheckM TypeIdx) (fuel : Nat) : Prop :=
  ∀ (st : CheckState) (e n : Nat), (sharing p (Given none) n).inv st →
    unstarted st.table.nominals ≤ fuel → e < st.table.nominals.length →
    n ≤ st.table.storage.types.length →
    Runs (sharing p (Given none) n) (intern e) st fun idx st' =>
      Interned (Given none) st'.table (.nominal e) idx

theorem nominalType_shares {intern : Nat → CheckM TypeIdx} {fuel : Nat}
    (hi : Names p intern fuel) {self : Option TypeIdx} {module : Nat} {span : Span} {path : Path}
    (hs : (sharing p (Given self) n).inv st) (hf : unstarted st.table.nominals ≤ fuel)
    (hn : n ≤ st.table.storage.types.length) :
    Runs (sharing p (Given self) n) (nominalType p intern module span path) st fun idx st' =>
      Interned (Given self) st'.table (declared p st.table.nominals module path) idx := by
  have hwiden : ∀ i, Given none i → Given self i := fun i hi => .inl (hi.resolve_right nofun)
  refine (resolveTypePath_shares hs).bind fun target st₁ hs₁ _ ⟨htable, htarget⟩ => ?_
  unfold declared
  rw [← htarget]
  cases target with
  | none => exact errorType_shares hs₁
  | some target =>
    obtain ⟨target, name⟩ := target
    refine .get ?_
    rw [← htable] at hf hn ⊢
    dsimp only
    cases hlook : lookupNominal p st₁.table.nominals module path target name with
    | none => exact rejected_shares hs₁ codes_ne_recursive.1
    | some e =>
      refine (widened (Nat.le_refl n) hwiden (hi st₁ e n hs₁ hf (lookupNominal_lt hlook) hn)).mono
        fun _ _ _ _ h => h.1.weaken hwiden

section Resolve

variable {intern : Nat → CheckM TypeIdx} {fuel : Nat} {module : Nat} {self : Option TypeIdx}

/-- Where a type lands: at a type of the table, as a call of the history. -/
def LandsAt (p : Package) (n module : Nat) (self : Option TypeIdx) (type : Ty) (st : CheckState)
    (m : CheckM TypeIdx) : Prop :=
  Runs (sharing p (Given self) n) m st fun idx st' => Lands (Given self) n st'.table
    (meaning p (declared p st.table.nominals) module self type) idx ∧
    st'.table.storage.usable idx = true ∧
    ⟨module, type, self, idx⟩ ∈ st'.table.resolutions

/-- Where the types of a list land. -/
def AllLand (p : Package) (n module : Nat) (self : Option TypeIdx) (types : List Ty)
    (st : CheckState) (m : CheckM (List TypeIdx)) : Prop :=
  Runs (sharing p (Given self) n) m st fun idxs st' => List.Forall₂ (Lands (Given self) n st'.table)
    (meanings p (declared p st.table.nominals) module self types) idxs ∧
    (∀ i ∈ idxs, st'.table.storage.usable i = true) ∧
    List.Forall₂ (fun type idx => ⟨module, type, self, idx⟩ ∈ st'.table.resolutions) types idxs

/-- **A call is entered into the history** with the index at which its type lands. -/
theorem recorded_shares {type : Ty} {m : CheckM TypeIdx}
    (hsteps : ResolvesTo p module self type st (recorded module type self m))
    (h : Runs (sharing p (Given self) n) m st fun idx st' => Arrives (Given self) n st'.table
      (meaning p (declared p st.table.nominals) module self type) idx ∧
      PartsMade st'.table ⟨module, type, self, idx⟩) :
    LandsAt p n module self type st (recorded module type self m) := by
  obtain ⟨idx, st₁, hrun, hs₁, ⟨hg₁, hmoved₁⟩, ha, hb⟩ := h
  let r : Resolution := ⟨module, type, self, idx⟩
  have hrecorded : recorded module type self m st =
      some (idx, { st₁ with table := withCall st₁.table r }) := by
    unfold recorded
    rw [bind_of_eq hrun]
    rfl
  refine share hsteps fun idx' st' hrun' hs' hg' ⟨husable, _⟩ => ?_
  cases hrecorded.symm.trans hrun'
  have hg : Grows st₁.table (withCall st₁.table r) :=
    .of_nominals (.refl _) rfl List.prefix_rfl (List.prefix_append _ _)
  have hadds (n : Nat) : Adds (Given self) n st₁.table (withCall st₁.table r) := { hg.toExtends with
    started := fun e old new ho hnew hst => .inl (Option.some.inj (ho.symm.trans hnew) ▸ hst)
    instances := fun _ h => .inl h
    rows := hs₁.2.1.rows
    refs := fun _ h => .inl h
    args := fun _ h => .inl h
    slots := fun _ h => .inl h
    copies := fun _ _ hcopy _ hidx heq => absurd heq (no_copy hcopy hidx)
    distinct := ⟨hs₁.2.1.distinct.apart, hs₁.2.1.distinct.instances⟩ }
  have hmoved (n : Nat) := (hadds n).moved hs₁.2.1
  refine ⟨(hadds n).tidy hs₁.2.1, hs₁.2.2.record hg.toExtends (hmoved n) husable hb ?_,
    hmoved₁.trans (hmoved n), ha.toLands.moved (Storage.usable_lt husable) (hmoved _), husable,
    List.mem_append_right _ (List.mem_singleton_self _)⟩
  show Arrives (Given self) n st₁.table
    (meaning p (declared p st₁.table.nominals) module self type) idx
  rw [declared_extend hg₁.toExtends]
  exact ha

/-- A type that has no parts. -/
theorem recorded_atom {type : Ty} {m : CheckM TypeIdx}
    (hbuilt : ∀ table idx, PartsMade table ⟨module, type, self, idx⟩)
    (hsteps : ResolvesTo p module self type st (recorded module type self m))
    (h : Runs (sharing p (Given self) n) m st fun idx st' => Interned (Given self) st'.table
      (meaning p (declared p st.table.nominals) module self type) idx) :
    LandsAt p n module self type st (recorded module type self m) :=
  recorded_shares hsteps (h.mono fun _ _ _ _ hm => ⟨hm.arrives, hbuilt ..⟩)

/-- The slots of a new tuple are new, and the copies in them are the first ones. -/
theorem slots_apart {ms : List Meaning} {idxs : List TypeIdx} {range : IdxRange} {s : Storage}
    (h : Sound p table) (ht : Tidy table) (he : table.storage.Extends s)
    (hl : List.Forall₂ (Lands known n table) ms idxs)
    (hlist : range.toList = List.range' table.storage.types.length idxs.length)
    (hcopies : idxs.map (table.storage.types[·]?) = range.toList.map (s.types[·]?)) :
    ∀ row ∈ table.storage.tupleTypes, ∀ slot ∈ row.elements.toList,
      ∀ part ∈ ms.zip range.toList, slot ≠ part.2 ∧
        (part.1.tupleFree = false → s.types[slot]? ≠ s.types[part.2]?) := by
  intro row hrow slot hslot part hpart
  have hlt := (h.closed.tuples row hrow).lt hslot
  obtain ⟨i, hi⟩ := List.mem_iff_getElem?.1 hpart
  obtain ⟨hm, hend⟩ := List.getElem?_zip_eq_some.1 hi
  have hge : table.storage.types.length ≤ part.2 := by
    have hmem := List.mem_of_getElem? hend
    rw [hlist] at hmem
    exact (List.mem_range'_1.1 hmem).1
  refine ⟨Nat.ne_of_lt (Nat.lt_of_lt_of_le hlt hge), fun hfree heq => ?_⟩
  obtain ⟨idx, hidx⟩ : ∃ idx, idxs[i]? = some idx := getElem?_of_length hl.length_eq.symm hm
  have hland : Lands known n table part.1 idx := by
    refine (List.forall₂_iff_zip.1 hl).2 (List.mem_of_getElem? (i := i) ?_)
    rw [List.getElem?_zip_eq_some]
    exact ⟨hm, hidx⟩
  obtain ⟨-, hloose⟩ := hland.fresh hfree
  have hcopy : table.storage.types[idx]? = s.types[part.2]? := by
    have hboth := congrArg (fun l : List (Option TypeNode) => l[i]?) hcopies
    simpa [hidx, hend] using hboth
  rw [getElem?_longer he.types hlt, ← hcopy] at heq
  -- the type is no slot, and no slot is a primitive
  have hne : slot ≠ idx := fun hsame => hloose.slots row hrow (hsame ▸ hslot)
  exact absurd (hloose.alone slot hne heq).1 (Nat.not_lt.2 (ht.slots row hrow slot hslot))

theorem tuple_shares {m : CheckM (List TypeIdx)} {ms : List Meaning}
    (hk : ∀ i, known i → st.table.storage.usable i = true)
    (hn : n ≤ st.table.storage.types.length)
    (h : Runs (sharing p known n) m st fun idxs st' =>
      List.Forall₂ (Lands known n st'.table) ms idxs ∧
      ∀ i ∈ idxs, st'.table.storage.usable i = true) :
    Runs (sharing p known n) (do
      let elements ← m
      let range ← build (StorageBuilder.copySeq elements)
      build (StorageBuilder.tupleType range)) st fun idx st' =>
        Arrives known n st'.table (.tuple ms) idx := by
  refine h.bind fun idxs st₁ hs₁ ⟨hg₁, hmoved₁⟩ ⟨hidxs, husable⟩ => ?_
  refine (copySeq_shares hs₁ husable (shares_of_mem hidxs)).bind
    fun range st₂ hs₂ ⟨hg₂, hmoved₂⟩ hrange => ?_
  obtain ⟨hwithin, hlist, hcopies, hrows, -⟩ := hrange
  have hlen := (hmoved₁.trans hmoved₂).length
  refine tupleType_shares hs₂ (fun i hi => (hg₁.trans hg₂).storage.usable (hk i hi))
    (Nat.le_trans hn hlen) hwithin (fun slot hslot => ?_)
    (by rw [hlist, List.length_range', hidxs.length_eq]) fun row hrow => ?_
  · rw [hlist, List.mem_range'_1] at hslot
    exact ⟨Nat.le_trans hs₁.2.1.base hslot.1,
      Nat.le_trans (Nat.le_trans hn hmoved₁.length) hslot.1⟩
  · exact slots_apart hs₁.1.1 hs₁.2.1 hg₂.storage hidxs hlist hcopies row (hrows ▸ hrow)

theorem blessedMeaning_misfit {isResult : Bool} {ms : List Meaning}
    (h : ms.length ≠ blessedArity isResult) : blessedMeaning isResult ms = .marker .error := by
  unfold blessedMeaning
  split
  · exact absurd rfl h
  · exact absurd rfl h
  · rfl

theorem meanings_length (names : Nat → Path → Meaning) (types : List Ty) :
    (meanings p names module self types).length = types.length := by
  induction types with
  | nil => rfl
  | cons type types ih => exact congrArg Nat.succ ih

/-- **A list**: what the first call returned stays loose while the others are made. -/
theorem allLand_cons {type : Ty} {types : List Ty} {m : CheckM TypeIdx} {ms : CheckM (List TypeIdx)}
    (hn : n ≤ st.table.storage.types.length) (h : LandsAt p n module self type st m)
    (hs : ∀ st', (sharing p (Given self) n).inv st' → Grows st.table st'.table →
      AllLand p st'.table.storage.types.length module self types st' ms) :
    AllLand p n module self (type :: types) st (do
      let idx ← m
      let idxs ← ms
      return idx :: idxs) := by
  refine h.bind fun idx st₁ hs₁ ⟨hg₁, hmoved₁⟩ ⟨hidx, husable, hcall⟩ => ?_
  have hbound := Nat.le_trans hn hmoved₁.length
  refine (widened hbound (fun _ h => h) (hs st₁ hs₁ hg₁)).bind
    fun idxs st₂ hs₂ ⟨hg₂, _⟩ ⟨⟨hidxs, husables, hcalls⟩, hmoved₂⟩ => .pure hs₂ ⟨?_, ?_, ?_⟩
  · rw [declared_extend hg₁.toExtends] at hidxs
    refine .cons (hidx.moved (Storage.usable_lt husable) hmoved₂) (hidxs.imp fun _ _ h => ?_)
    exact ⟨h.shared, fun hfree => (h.fresh hfree).imp (Nat.le_trans hbound) id⟩
  · exact List.forall_mem_cons.2 ⟨hg₂.storage.usable husable, husables⟩
  · exact .cons (hg₂.resolutions.subset hcall) hcalls

mutual

/-- **Where a type lands**: without a tuple that has elements at its one index, with one at a new
index that nothing else uses. -/
theorem resolveType_shares (hi : Interns p intern fuel) (hnames : Names p intern fuel) :
    ∀ (type : Ty) {st : CheckState} {n : Nat}, (sharing p (Given self) n).inv st →
    unstarted st.table.nominals ≤ fuel →
    (∀ i, self = some i → st.table.storage.usable i = true) →
    n ≤ st.table.storage.types.length →
    LandsAt p n module self type st (resolveType p intern module self type)
  | .primitive span kind, st, n, hs, hf, hself, _ => by
    have hsteps : ResolvesTo p module self _ st _ :=
      resolveType_steps hi (.primitive span kind) hs.1 hf hself
    unfold resolveType at hsteps ⊢
    exact recorded_atom (fun _ _ => trivial) hsteps (primitiveType_shares hs)
  | .unit span, st, n, hs, hf, hself, _ => by
    have hsteps : ResolvesTo p module self _ st _ := resolveType_steps hi (.unit span) hs.1 hf hself
    unfold resolveType at hsteps ⊢
    exact recorded_atom (fun _ _ => trivial) hsteps (.pure hs (Interned.node (.inl (by decide))))
  | .never span, st, n, hs, hf, hself, _ => by
    have hsteps : ResolvesTo p module self _ st _ :=
      resolveType_steps hi (.never span) hs.1 hf hself
    unfold resolveType at hsteps ⊢
    exact recorded_atom (fun _ _ => trivial) hsteps (markerType_shares (.inl rfl) hs)
  | .str span, st, n, hs, hf, hself, _ => by
    have hsteps : ResolvesTo p module self _ st _ := resolveType_steps hi (.str span) hs.1 hf hself
    unfold resolveType at hsteps ⊢
    exact recorded_atom (fun _ _ => trivial) hsteps (.pure hs (Interned.node (.inl (by decide))))
  | .tuple span elements, st, n, hs, hf, hself, hn => by
    have hsteps : ResolvesTo p module self _ st _ :=
      resolveType_steps hi (.tuple span elements) hs.1 hf hself
    unfold resolveType at hsteps ⊢
    have hlands : AllLand p n module self elements st _ :=
      resolveTypes_shares hi hnames elements hs hf hself hn
    exact recorded_shares hsteps ((tuple_shares (given_usable hs.1.1 hself) hn
      (hlands.mono fun _ _ _ _ h => ⟨h.1, h.2.1⟩)).mono fun _ _ _ _ h => ⟨h, trivial⟩)
  | .ref span isMut inner, st, n, hs, hf, hself, hn => by
    have hsteps : ResolvesTo p module self _ st _ :=
      resolveType_steps hi (.ref span isMut inner) hs.1 hf hself
    unfold resolveType at hsteps ⊢
    refine recorded_shares hsteps ((resolveType_shares hi hnames inner hs hf hself hn).bind
      fun idx st₁ hs₁ ⟨hg₁, hmoved₁⟩ ⟨hidx, husable, hcall⟩ => ?_)
    refine (referenceType_shares hs₁
      (given_usable hs₁.1.1 fun i h => hg₁.storage.usable (hself i h))
      (Nat.le_trans hn hmoved₁.length) (Storage.usable_lt husable) hidx).mono
        fun ref st₂ _ ⟨hg₂, _⟩ ⟨ha, k, hnode, hrow⟩ => ⟨ha, k, idx, hnode, hrow, ?_⟩
    exact hg₂.resolutions.subset hcall
  | .path span path args, st, n, hs, hf, hself, hn => by
    have hsteps : ResolvesTo p module self _ st _ :=
      resolveType_steps hi (.path span path args) hs.1 hf hself
    unfold resolveType at hsteps ⊢
    refine recorded_shares hsteps ?_
    unfold meaning
    by_cases hblock : singleSegment path = some "Self"
    · simp only [if_pos hblock]
      exact (selfType_shares hs).mono fun _ _ _ _ h =>
        ⟨h.arrives, fun hother => absurd hblock hother⟩
    simp only [if_neg hblock]
    cases hpath : blessedPath path with
    | some isResult =>
      by_cases hfit : args.length = blessedArity isResult
      · simp only [ne_eq, hfit, not_true_eq_false, if_false]
        refine (resolveTypes_shares hi hnames args hs hf hself hn).bind
          fun idxs st₁ hs₁ ⟨hg₁, hmoved₁⟩ ⟨hidxs, husable, hcalls⟩ => ?_
        have hlen : idxs.length = blessedArity isResult := by
          rw [← hidxs.length_eq, meanings_length, hfit]
        refine (internBlessed_shares hs₁
          (given_usable hs₁.1.1 fun i h => hg₁.storage.usable (hself i h))
          (Nat.le_trans hn hmoved₁.length) hlen husable hidxs).mono
            fun idx st₂ _ ⟨hg₂, _⟩ ⟨ha, entry, hmem, htype, hkind, hargs⟩ =>
              ⟨ha, fun _ isResult' hpath' _ => ⟨entry, hmem, htype, ?_, ?_⟩⟩
        · exact hkind.trans (Option.some.inj (hpath.symm.trans hpath'))
        · rw [hargs]
          exact hcalls.imp fun _ _ hcall => hg₂.resolutions.subset hcall
      · simp only [ne_eq, hfit, not_false_eq_true, if_true]
        have hmisfit : blessedMeaning isResult
            (meanings p (declared p st.table.nominals) module self args) = .marker .error :=
          blessedMeaning_misfit (by rwa [meanings_length])
        rw [hmisfit]
        refine (rejected_shares hs codes_ne_recursive.2.1).mono fun _ _ _ _ h =>
          ⟨h.arrives, fun _ isResult' hpath' hfit' => absurd ?_ hfit⟩
        cases hpath.symm.trans hpath'
        exact hfit'
    | none =>
      have hbuilt (table : Table) (idx : TypeIdx) :
          PartsMade table ⟨module, .path span path args, self, idx⟩ :=
        fun _ isResult hpath' => absurd (hpath.symm.trans hpath') nofun
      dsimp only
      split
      · exact (nominalType_shares hnames hs hf hn).mono fun _ _ _ _ h => ⟨h.arrives, hbuilt _ _⟩
      · exact (rejected_shares hs codes_ne_recursive.2.2.1).mono fun _ _ _ _ h =>
          ⟨h.arrives, hbuilt _ _⟩

theorem resolveTypes_shares (hi : Interns p intern fuel) (hnames : Names p intern fuel) :
    ∀ (types : List Ty) {st : CheckState} {n : Nat}, (sharing p (Given self) n).inv st →
    unstarted st.table.nominals ≤ fuel →
    (∀ i, self = some i → st.table.storage.usable i = true) →
    n ≤ st.table.storage.types.length →
    AllLand p n module self types st (resolveTypes p intern module self types)
  | [], st, n, hs, _, _, _ => by
    unfold resolveTypes
    exact .pure hs ⟨.nil, nofun, .nil⟩
  | type :: types, st, n, hs, hf, hself, hn => by
    unfold resolveTypes
    refine allLand_cons hn (resolveType_shares hi hnames type hs hf hself hn) fun st' hs' hg' => ?_
    exact resolveTypes_shares hi hnames types hs' (Nat.le_trans hg'.unstarted_le hf)
      (fun i h => hg'.storage.usable (hself i h)) (Nat.le_refl _)

end

end Resolve

end Alcy.Analyzer.Types
