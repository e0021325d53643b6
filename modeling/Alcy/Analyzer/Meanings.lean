import Alcy.Analyzer.CheckPackage

/-! # What types mean

The type that a position of the source stands for, and the index under which a type table has it.
The index of a meaning is found as the interning functions find it, by a scan for the first node
with the shape. A later table keeps it, and gives no old index to a meaning that had none.
-/
namespace Alcy.Analyzer.Types
open Alcy.Ast Alcy.Diag Alcy.Ir

/-! ## Meanings -/

/-- A type. A `node` is given by its index: a primitive, or the type of the surrounding block;
`nominal` is a registered declaration. -/
inductive Meaning where
  | node (idx : TypeIdx)
  | marker (tag : TypeTag)
  | nominal (e : Nat)
  | tuple (elements : List Meaning)
  | ref (isMut : Bool) (pointee : Meaning)
  | option (payload : Meaning)
  | result (ok err : Meaning)

/-- No tuple with an element in it, at any depth. -/
def Meaning.tupleFree : Meaning → Bool
  | .tuple elements => elements.isEmpty
  | .ref _ pointee => pointee.tupleFree
  | .option payload => payload.tupleFree
  | .result ok err => ok.tupleFree && err.tupleFree
  | .node _ | .marker _ | .nominal _ => true

/-- The node of a declaration, once it has one. -/
def settledNominal (nominals : List NominalEntry) (e : Nat) : Meaning :=
  match nominals[e]? with
  | some entry => if entry.started then .node entry.type else .nominal e
  | none => .nominal e

mutual

/-- The type with its declarations replaced by their nodes: `Self` in a block for a nominal is the
nominal. -/
def Meaning.settled (nominals : List NominalEntry) : Meaning → Meaning
  | .node idx => .node idx
  | .marker tag => .marker tag
  | .nominal e => settledNominal nominals e
  | .tuple elements => .tuple (settledAll nominals elements)
  | .ref isMut pointee => .ref isMut (pointee.settled nominals)
  | .option payload => .option (payload.settled nominals)
  | .result ok err => .result (ok.settled nominals) (err.settled nominals)

def settledAll (nominals : List NominalEntry) : List Meaning → List Meaning
  | [] => []
  | first :: rest => first.settled nominals :: settledAll nominals rest

end

variable (p : Package)

/-- The index of a primitive; the 128-bit integers are not supported. -/
def primitiveMeaning : PrimitiveKind → Meaning
  | .i8 => .node (primitiveIdx .i8)
  | .i16 => .node (primitiveIdx .i16)
  | .i32 => .node (primitiveIdx .i32)
  | .i64 => .node (primitiveIdx .i64)
  | .isize => .node (primitiveIdx (if p.width = .w64 then .i64 else .i32))
  | .u8 => .node (primitiveIdx .u8)
  | .u16 => .node (primitiveIdx .u16)
  | .u32 => .node (primitiveIdx .u32)
  | .u64 => .node (primitiveIdx .u64)
  | .usize => .node (primitiveIdx (if p.width = .w64 then .u64 else .u32))
  | .f32 => .node (primitiveIdx .f32)
  | .f64 => .node (primitiveIdx .f64)
  | .bool => .node (primitiveIdx .i1)
  | .str => .node (primitiveIdx .str)
  | .i128 | .u128 => .marker .error

/-- The module and the name that a path leads to. -/
def pathTarget (module : Nat) (path : Path) : Option (Nat × String) :=
  match path.segments.getLast? with
  | none => none
  | some last =>
    match walkModulePrefix p.tree module path "type" with
    | .error _ => none
    | .ok target => some (target, last.name)

/-- The declaration that a path names. -/
def declared (nominals : List NominalEntry) (module : Nat) (path : Path) : Meaning :=
  match pathTarget p module path with
  | none => .marker .error
  | some (target, name) =>
    match lookupNominal p nominals module path target name with
    | none => .marker .error
    | some e => .nominal e

def selfMeaning (args : List Ty) : Option TypeIdx → Meaning
  | none => .marker .error
  | some idx => if args.isEmpty then .node idx else .marker .error

/-- `Result` of two types or `Option` of one. -/
def blessedMeaning : Bool → List Meaning → Meaning
  | true, [ok, err] => .result ok err
  | false, [payload] => .option payload
  | _, _ => .marker .error

variable (names : Nat → Path → Meaning) (module : Nat) (self : Option TypeIdx)

mutual

/-- The type of a position, where `names` says what a declared name means. What is rejected is the
error type. -/
def meaning : Ty → Meaning
  | .primitive _ kind => primitiveMeaning p kind
  | .unit _ => .node (primitiveIdx .void)
  | .never _ => .marker .never
  | .str _ => .node (primitiveIdx .str)
  | .tuple _ elements => .tuple (meanings elements)
  | .ref _ isMut inner => .ref isMut (meaning inner)
  | .path _ path args =>
    if singleSegment path = some "Self" then selfMeaning args self
    else
      match blessedPath path with
      | some isResult => blessedMeaning isResult (meanings args)
      | none => if args.isEmpty then names module path else .marker .error

def meanings : List Ty → List Meaning
  | [] => []
  | type :: rest => meaning type :: meanings rest

end

/-- What a call of the history was asked to resolve. -/
def Resolution.meaning (nominals : List NominalEntry) (r : Resolution) : Meaning :=
  Types.meaning p (declared p nominals) r.module r.self r.type

/-! ## Slots -/

/-- The nodes past the primitives have their rows. -/
def Rowed (s : Storage) : Prop :=
  ∀ node ∈ s.types.drop (kPrimitiveTypeCount + 1), s.readable node = true

/-- What the scan of `never_type` and `error_type` finds. -/
def markerSlot (s : Storage) (tag : TypeTag) : Option TypeIdx :=
  StorageBuilder.scan s fun node => node.tag = tag

def referenceTag (isMut : Bool) : TypeTag := if isMut then .mutRef else .ref

/-- What the scan of `reference_type` finds. -/
def refSlot (s : Storage) (isMut : Bool) (pointee : TypeIdx) : Option TypeIdx :=
  StorageBuilder.scan s fun node => node.tag = referenceTag isMut &&
    s.refTypes[node.data]?.any fun row => row.pointee = pointee

/-- What the scan of `tuple_type` finds. -/
def tupleSlot (s : Storage) (elements : List TypeIdx) : Option TypeIdx :=
  StorageBuilder.scan s fun node => node.tag = .tuple &&
    s.tupleTypes[node.data]?.any fun row => row.elements.toList = elements

/-- What the loop of `intern_blessed` finds. -/
def blessedSlot (blessed : List BlessedEntry) (isResult : Bool) (args : List TypeIdx) :
    Option BlessedEntry :=
  blessed.find? fun entry => entry.isResult = isResult && entry.args = args

theorem findIdx?_congr {α : Type} {P Q : α → Bool} {l : List α} (h : ∀ a ∈ l, P a = Q a) :
    l.findIdx? P = l.findIdx? Q := by
  induction l with
  | nil => rfl
  | cons a l ih =>
    obtain ⟨ha, hl⟩ := List.forall_mem_cons.1 h
    rw [List.findIdx?_cons, List.findIdx?_cons, ha, ih hl]

/-- A scan leaves the primitives out. -/
theorem scan_base {s : Storage} {fits : TypeNode → Bool} {idx : TypeIdx}
    (h : StorageBuilder.scan s fits = some idx) : kPrimitiveTypeCount + 1 ≤ idx := by
  obtain ⟨i, -, rfl⟩ := Option.map_eq_some_iff.1 h
  exact Nat.le_add_left ..

/-- A scan that fails finds the node that is appended. -/
theorem scan_pushed {s s' : Storage} {fits fits' : TypeNode → Bool} {node : TypeNode}
    (h : s'.types = s.types ++ [node]) (hbase : kPrimitiveTypeCount + 1 ≤ s.types.length)
    (hfits : ∀ node ∈ s.types.drop (kPrimitiveTypeCount + 1), fits' node = fits node)
    (hnone : StorageBuilder.scan s fits = none) (hnode : fits' node = true) :
    StorageBuilder.scan s' fits' = some s.types.length := by
  have hold : (s.types.drop (kPrimitiveTypeCount + 1)).findIdx? fits' = none :=
    (findIdx?_congr hfits).trans (Option.map_eq_none_iff.1 hnone)
  unfold StorageBuilder.scan
  rw [h, List.drop_append_of_le_length hbase, List.findIdx?_append, hold]
  simp only [List.findIdx?_singleton, hnode, if_true, Option.none_or, Option.map_some,
    List.length_drop, Nat.zero_add, Option.some.injEq]
  exact Nat.sub_add_cancel hbase

/-- **A scan finds the same old node in a longer table**, when the old nodes fit as before. -/
theorem scan_old {s s' : Storage} {fits fits' : TypeNode → Bool} (h : s.types <+: s'.types)
    (hbase : kPrimitiveTypeCount + 1 ≤ s.types.length)
    (hfits : ∀ node ∈ s.types.drop (kPrimitiveTypeCount + 1), fits' node = fits node)
    {idx : TypeIdx} (hidx : idx < s.types.length) :
    StorageBuilder.scan s' fits' = some idx ↔ StorageBuilder.scan s fits = some idx := by
  obtain ⟨new, hnew⟩ := h
  have hold : (s.types.drop (kPrimitiveTypeCount + 1)).findIdx? fits' =
      (s.types.drop (kPrimitiveTypeCount + 1)).findIdx? fits :=
    findIdx?_congr hfits
  unfold StorageBuilder.scan
  rw [← hnew, List.drop_append_of_le_length hbase, List.findIdx?_append, hold]
  cases (s.types.drop (kPrimitiveTypeCount + 1)).findIdx? fits with
  | some i => rfl
  | none =>
    -- what is found among the new nodes lies behind the old ones
    simp only [Option.none_or, Option.map_none, reduceCtorEq, iff_false]
    intro hfound
    obtain ⟨i, hi, rfl⟩ := Option.map_eq_some_iff.1 hfound
    obtain ⟨j, -, rfl⟩ := Option.map_eq_some_iff.1 hi
    have hlt : j + (s.types.length - (kPrimitiveTypeCount + 1)) + (kPrimitiveTypeCount + 1) <
        s.types.length := by rwa [List.length_drop] at hidx
    omega

/-- The rows that the old nodes name are the same in a longer table. -/
theorem any_row_old {α : Type} {l l' : List α} (h : l <+: l') {k : Nat} (hk : k < l.length)
    (P : α → Bool) : l'[k]?.any P = l[k]?.any P := by
  rw [List.getElem?_eq_getElem hk, getElem?_mono h (List.getElem?_eq_getElem hk)]

section Old

variable {s s' : Storage}

theorem refFits_old (h : s.refTypes <+: s'.refTypes) (hrows : Rowed s) (isMut : Bool)
    (pointee : TypeIdx) : ∀ node ∈ s.types.drop (kPrimitiveTypeCount + 1),
    (decide (node.tag = referenceTag isMut) && s'.refTypes[node.data]?.any fun row =>
      decide (row.pointee = pointee)) =
    (decide (node.tag = referenceTag isMut) && s.refTypes[node.data]?.any fun row =>
      decide (row.pointee = pointee)) := by
  intro node hnode
  by_cases htag : node.tag = referenceTag isMut
  · have hlt : node.data < s.refTypes.length := by
      have hread := hrows node hnode
      unfold Storage.readable at hread
      cases isMut <;> simpa [htag, referenceTag] using hread
    rw [any_row_old h hlt]
  · simp [htag]

theorem tupleFits_old (h : s.tupleTypes <+: s'.tupleTypes) (hrows : Rowed s)
    (elements : List TypeIdx) : ∀ node ∈ s.types.drop (kPrimitiveTypeCount + 1),
    (decide (node.tag = .tuple) && s'.tupleTypes[node.data]?.any fun row =>
      decide (row.elements.toList = elements)) =
    (decide (node.tag = .tuple) && s.tupleTypes[node.data]?.any fun row =>
      decide (row.elements.toList = elements)) := by
  intro node hnode
  by_cases htag : node.tag = .tuple
  · have hlt : node.data < s.tupleTypes.length := by
      have hread := hrows node hnode
      unfold Storage.readable at hread
      simpa [htag] using hread
    rw [any_row_old h hlt]
  · simp [htag]

variable (h : s.Extends s') (hbase : kPrimitiveTypeCount + 1 ≤ s.types.length) (hrows : Rowed s)
  {idx : TypeIdx} (hidx : idx < s.types.length)
include h hbase hidx

theorem markerSlot_old (tag : TypeTag) :
    markerSlot s' tag = some idx ↔ markerSlot s tag = some idx :=
  scan_old h.types hbase (fun _ _ => rfl) hidx

include hrows

theorem refSlot_old (isMut : Bool) (pointee : TypeIdx) :
    refSlot s' isMut pointee = some idx ↔ refSlot s isMut pointee = some idx :=
  scan_old h.types hbase (refFits_old h.refs hrows isMut pointee) hidx

theorem tupleSlot_old (elements : List TypeIdx) :
    tupleSlot s' elements = some idx ↔ tupleSlot s elements = some idx :=
  scan_old h.types hbase (tupleFits_old h.tuples hrows elements) hidx

end Old

theorem markerSlot_some {s : Storage} {tag : TypeTag} {idx : TypeIdx}
    (h : markerSlot s tag = some idx) : ∃ k, s.types[idx]? = some ⟨tag, k⟩ := by
  obtain ⟨⟨other, k⟩, hnode, hfits⟩ := StorageBuilder.scan_eq_some h
  obtain rfl : other = tag := of_decide_eq_true hfits
  exact ⟨k, hnode⟩

theorem refSlot_some {s : Storage} {isMut : Bool} {pointee idx : TypeIdx}
    (h : refSlot s isMut pointee = some idx) :
    ∃ k, s.types[idx]? = some ⟨referenceTag isMut, k⟩ ∧ s.refTypes[k]? = some ⟨pointee⟩ := by
  obtain ⟨⟨other, k⟩, hnode, hfits⟩ := StorageBuilder.scan_eq_some h
  simp only [Bool.and_eq_true, decide_eq_true_eq, Option.any_eq_true] at hfits
  obtain ⟨rfl, ⟨b⟩, hrow, rfl⟩ := hfits
  exact ⟨k, hnode, hrow⟩

theorem tupleSlot_some {s : Storage} {elements : List TypeIdx} {idx : TypeIdx}
    (h : tupleSlot s elements = some idx) : ∃ k row, s.types[idx]? = some ⟨.tuple, k⟩ ∧
      s.tupleTypes[k]? = some row ∧ row.elements.toList = elements := by
  obtain ⟨⟨other, k⟩, hnode, hfits⟩ := StorageBuilder.scan_eq_some h
  simp only [Bool.and_eq_true, decide_eq_true_eq, Option.any_eq_true] at hfits
  obtain ⟨rfl, row, hrow, heq⟩ := hfits
  exact ⟨k, row, hnode, hrow, heq⟩

theorem blessedSlot_some {blessed : List BlessedEntry} {isResult : Bool} {args : List TypeIdx}
    {entry : BlessedEntry} (h : blessedSlot blessed isResult args = some entry) :
    entry ∈ blessed ∧ entry.isResult = isResult ∧ entry.args = args := by
  have hfits := List.find?_some h
  simp only [Bool.and_eq_true, decide_eq_true_eq] at hfits
  exact ⟨List.mem_of_find?_eq_some h, hfits⟩

/-! ## The index of a meaning -/

/-- The index at which interning finds the type. `known` are the indexes that may be given from
outside. A tuple with an element has none: nothing would find it again. -/
inductive Interned (known : TypeIdx → Prop) (table : Table) : Meaning → TypeIdx → Prop
  | node {idx} : known idx → Interned known table (.node idx) idx
  | marker {tag idx} : tag = .never ∨ tag = .error → markerSlot table.storage tag = some idx →
      Interned known table (.marker tag) idx
  | nominal {e entry} : table.nominals[e]? = some entry → entry.started = true →
      Interned known table (.nominal e) entry.type
  | empty {idx} : tupleSlot table.storage [] = some idx → Interned known table (.tuple []) idx
  | ref {isMut pointee inner idx} : Interned known table pointee inner →
      refSlot table.storage isMut inner = some idx → Interned known table (.ref isMut pointee) idx
  | option {payload inner entry} : Interned known table payload inner →
      blessedSlot table.blessed false [inner] = some entry →
      Interned known table (.option payload) entry.type
  | result {ok err first second entry} : Interned known table ok first →
      Interned known table err second →
      blessedSlot table.blessed true [first, second] = some entry →
      Interned known table (.result ok err) entry.type

section Interned

variable {known known' : TypeIdx → Prop} {table table' : Table} {m : Meaning} {idx idx' : TypeIdx}

theorem Interned.weaken (hk : ∀ i, known i → known' i) (h : Interned known table m idx) :
    Interned known' table m idx := by
  induction h with
  | node h => exact .node (hk _ h)
  | marker ht h => exact .marker ht h
  | nominal h hs => exact .nominal h hs
  | empty h => exact .empty h
  | ref _ h ih => exact .ref ih h
  | option _ h ih => exact .option ih h
  | result _ _ h ih₁ ih₂ => exact .result ih₁ ih₂ h

/-- **A meaning has one index.** -/
theorem Interned.unique (h : Interned known table m idx) (h' : Interned known table m idx') :
    idx = idx' := by
  induction h generalizing idx' with
  | node _ =>
    cases h'
    rfl
  | marker _ h =>
    cases h' with
    | marker _ h' => exact Option.some.inj (h.symm.trans h')
  | nominal h _ =>
    cases h' with
    | nominal h' _ => rw [Option.some.inj (h.symm.trans h')]
  | empty h =>
    cases h' with
    | empty h' => exact Option.some.inj (h.symm.trans h')
  | ref _ h ih =>
    cases h' with
    | ref hinner h' =>
      obtain rfl := ih hinner
      exact Option.some.inj (h.symm.trans h')
  | option _ h ih =>
    cases h' with
    | option hinner h' =>
      obtain rfl := ih hinner
      rw [Option.some.inj (h.symm.trans h')]
  | result _ _ h ih₁ ih₂ =>
    cases h' with
    | result h₁ h₂ h' =>
      obtain rfl := ih₁ h₁
      obtain rfl := ih₂ h₂
      rw [Option.some.inj (h.symm.trans h')]

theorem Interned.tupleFree (h : Interned known table m idx) : m.tupleFree = true := by
  induction h with
  | node _ | marker _ _ | nominal _ _ | empty _ => rfl
  | ref _ _ ih => exact ih
  | option _ _ ih => exact ih
  | result _ _ _ ih₁ ih₂ => exact Bool.and_eq_true_iff.2 ⟨ih₁, ih₂⟩

/-- A declaration has the index of its node. -/
theorem Interned.settled (h : Interned known table m idx) :
    Interned (fun _ => True) table (m.settled table.nominals) idx := by
  induction h with
  | node _ => exact .node trivial
  | marker ht h => exact .marker ht h
  | nominal h hs =>
    simp only [Meaning.settled, settledNominal, h, hs, if_true]
    exact .node trivial
  | empty h => exact .empty h
  | ref _ h ih => exact .ref ih h
  | option _ h ih => exact .option ih h
  | result _ _ h ih₁ ih₂ => exact .result ih₁ ih₂ h

/-- Naming the nodes changes no shape. -/
theorem Meaning.tupleFree_settled (nominals : List NominalEntry) :
    ∀ m : Meaning, (m.settled nominals).tupleFree = m.tupleFree
  | .node _ | .marker _ => rfl
  | .nominal e => by
    show (settledNominal nominals e).tupleFree = true
    unfold settledNominal
    split
    · split <;> rfl
    · rfl
  | .tuple [] | .tuple (_ :: _) => rfl
  | .ref _ pointee => tupleFree_settled nominals pointee
  | .option payload => tupleFree_settled nominals payload
  | .result ok err => by
    show ((ok.settled nominals).tupleFree && (err.settled nominals).tupleFree) = _
    rw [tupleFree_settled nominals ok, tupleFree_settled nominals err]
    rfl

end Interned

/-! ## Later tables -/

/-- No two instances of `Result` and `Option` have the same node, nor an instance and a nominal. -/
structure Distinct (table : Table) : Prop where
  apart : ∀ entry ∈ table.nominals, entry.started = true → ∀ inst ∈ table.blessed,
    table.storage.types[entry.type]? ≠ table.storage.types[inst.type]?
  instances : table.blessed.Pairwise fun inst inst' =>
    table.storage.types[inst.type]? ≠ table.storage.types[inst'.type]?

/-- What is needed of a table for its scans: rows for its nodes, and nothing that points behind its
end. References point back, and no slot of a tuple is a primitive. -/
structure Tidy (table : Table) : Prop where
  base : kPrimitiveTypeCount + 1 ≤ table.storage.types.length
  rows : Rowed table.storage
  refs : ∀ row ∈ table.storage.refTypes, row.pointee < table.storage.types.length
  args : ∀ entry ∈ table.blessed, ∀ arg ∈ entry.args, arg < table.storage.types.length
  below : ∀ (idx : TypeIdx) (isMut : Bool) (k : Nat) (row : RefType),
    kPrimitiveTypeCount + 1 ≤ idx → table.storage.types[idx]? = some ⟨referenceTag isMut, k⟩ →
    table.storage.refTypes[k]? = some row → row.pointee < idx
  slots : ∀ row ∈ table.storage.tupleTypes, ∀ slot ∈ row.elements.toList,
    kPrimitiveTypeCount + 1 ≤ slot
  distinct : Distinct table

/-- The new nominals and the new instances of `Result` and `Option` are new types. -/
structure Later (table table' : Table) : Prop extends Extends table table' where
  started : ∀ (e : Nat) (old new : NominalEntry), table.nominals[e]? = some old →
    table'.nominals[e]? = some new → new.started = true →
    old.started = true ∨ table.storage.types.length ≤ new.type
  instances : ∀ entry ∈ table'.blessed, entry ∈ table.blessed ∨
    table.storage.types.length ≤ entry.type

section Later

variable {known : TypeIdx → Prop} {table table' : Table} {m : Meaning} {idx : TypeIdx}

theorem blessedSlot_append {blessed : List BlessedEntry} (new : List BlessedEntry) {isResult : Bool}
    {args : List TypeIdx} {entry : BlessedEntry}
    (h : blessedSlot blessed isResult args = some entry) :
    blessedSlot (blessed ++ new) isResult args = some entry := by
  unfold blessedSlot at h ⊢
  rw [List.find?_append, h, Option.some_or]

/-- What is found first and is old was found before. -/
theorem blessedSlot_old (h : Later table table') {isResult : Bool} {args : List TypeIdx}
    {entry : BlessedEntry} (hslot : blessedSlot table'.blessed isResult args = some entry)
    (hold : entry.type < table.storage.types.length) :
    blessedSlot table.blessed isResult args = some entry := by
  obtain ⟨new, hnew⟩ := h.blessed
  cases hfirst : blessedSlot table.blessed isResult args with
  | some first =>
    have hsame := blessedSlot_append new hfirst
    rw [hnew, hslot] at hsame
    exact hsame.symm
  | none =>
    -- an old entry with these arguments would have been found
    obtain ⟨hmem, hkind, hargs⟩ := blessedSlot_some hslot
    rcases h.instances entry hmem with hmem | hge
    · have hnot := List.find?_eq_none.1 hfirst entry hmem
      simp [hkind, hargs] at hnot
    · exact absurd hold (Nat.not_lt.2 hge)

/-- **A later table keeps every index.** -/
theorem Interned.mono (ht : Tidy table) (he : Extends table table')
    (h : Interned known table m idx) : Interned known table' m idx := by
  have hscan {fits : TypeNode → Bool} {i : TypeIdx}
      (hi : StorageBuilder.scan table.storage fits = some i) : i < table.storage.types.length := by
    obtain ⟨node, hnode, -⟩ := StorageBuilder.scan_eq_some hi
    exact (List.getElem?_eq_some_iff.1 hnode).1
  have hblessed {isResult : Bool} {args : List TypeIdx} {entry : BlessedEntry}
      (hslot : blessedSlot table.blessed isResult args = some entry) :
      blessedSlot table'.blessed isResult args = some entry := by
    obtain ⟨new, hnew⟩ := he.blessed
    rw [← hnew]
    exact blessedSlot_append new hslot
  induction h with
  | node h => exact .node h
  | marker htag h => exact .marker htag ((markerSlot_old he.storage ht.base (hscan h) _).2 h)
  | @nominal e entry h hs =>
    obtain ⟨new, hnew⟩ := getElem?_of_length he.length h
    rw [(he.kept e entry new h hnew).settled hs] at hnew
    exact .nominal hnew hs
  | empty h => exact .empty ((tupleSlot_old he.storage ht.base ht.rows (hscan h) _).2 h)
  | ref _ h ih => exact .ref ih ((refSlot_old he.storage ht.base ht.rows (hscan h) _ _).2 h)
  | option _ h ih => exact .option ih (hblessed h)
  | result _ _ h ih₁ ih₂ => exact .result ih₁ ih₂ (hblessed h)

/-- **No old index is given to another meaning.** -/
theorem Interned.reflect (ht : Tidy table) (hl : Later table table')
    (h : Interned known table' m idx) (hidx : idx < table.storage.types.length) :
    Interned known table m idx := by
  induction h with
  | node h => exact .node h
  | marker htag h => exact .marker htag ((markerSlot_old hl.storage ht.base hidx _).1 h)
  | @nominal e new h hs =>
    obtain ⟨old, hold⟩ := getElem?_of_length hl.length.symm h
    rcases hl.started e old new hold h hs with hstarted | hge
    · rw [(hl.kept e old new hold h).settled hstarted] at hs ⊢
      exact .nominal hold hs
    · exact absurd hidx (Nat.not_lt.2 hge)
  | empty h => exact .empty ((tupleSlot_old hl.storage ht.base ht.rows hidx _).1 h)
  | ref _ h ih =>
    have hold := (refSlot_old hl.storage ht.base ht.rows hidx _ _).1 h
    obtain ⟨k, -, hrow⟩ := refSlot_some hold
    exact .ref (ih (ht.refs _ (List.mem_of_getElem? hrow))) hold
  | @option _ inner entry _ h ih =>
    have hold := blessedSlot_old hl h hidx
    obtain ⟨hmem, -, hargs⟩ := blessedSlot_some hold
    exact .option (ih (ht.args entry hmem inner (by simp [hargs]))) hold
  | @result _ _ first second entry _ _ h ih₁ ih₂ =>
    have hold := blessedSlot_old hl h hidx
    obtain ⟨hmem, -, hargs⟩ := blessedSlot_some hold
    exact .result (ih₁ (ht.args entry hmem first (by simp [hargs])))
      (ih₂ (ht.args entry hmem second (by simp [hargs]))) hold

end Later

end Alcy.Analyzer.Types
