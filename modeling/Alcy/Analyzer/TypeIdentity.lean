import Alcy.Analyzer.Annotations

/-! # Type identity

When `types_equal` recognizes a type. The comparison goes by the nodes, but structs and enums
compare by their indexes, so that a copy of one is another type.
-/
namespace Alcy.Analyzer.Types
open Alcy.Ast Alcy.Diag Alcy.Ir
open Alcy.Analyzer.Bodies (allEqual typesEqual typesEqualInner onlyRoot unitStruct namedType
  fnOf pathTo reported)

variable {p : Package} {table : Table} {i j a b : TypeIdx} {m m' : Meaning} {left right : TypeNode}

/-! ## One step -/

section Step

variable {s : Storage} {fuel : Nat} {seen : List (TypeIdx × TypeIdx)} (hne : a ≠ b)
  (hseen : (a, b) ∉ seen) (ha : s.types[a]? = some left) (hb : s.types[b]? = some right)
include hne hseen ha hb

theorem inner_differ (htag : left.tag ≠ right.tag) :
    typesEqualInner s (fuel + 1) seen a b = some (false, seen ++ [(a, b)]) := by
  rw [typesEqualInner, if_neg hne, if_neg hseen, ha, hb]
  exact if_pos htag

theorem inner_nominal (htag : left.tag = right.tag)
    (hleft : left.tag = .struct ∨ left.tag = .enum) :
    typesEqualInner s (fuel + 1) seen a b = some (false, seen ++ [(a, b)]) := by
  rw [typesEqualInner, if_neg hne, if_neg hseen, ha, hb]
  refine (if_neg (not_not.2 htag)).trans ?_
  rcases hleft with hleft | hleft <;> rw [hleft] <;> rfl

/-- What has no parts is known by its tag. -/
theorem inner_atom (htag : left.tag = right.tag)
    (hleft : primitiveIdx left.tag ≤ primitiveIdx .str ∨ left.tag = .never ∨ left.tag = .error) :
    typesEqualInner s (fuel + 1) seen a b = some (true, seen ++ [(a, b)]) := by
  rw [typesEqualInner, if_neg hne, if_neg hseen, ha, hb]
  refine (if_neg (not_not.2 htag)).trans ?_
  obtain ⟨tag, k⟩ := left
  dsimp only at hleft
  cases tag <;> first | rfl | exact absurd hleft (by decide)

theorem inner_ref {isMut : Bool} {row row' : RefType} (hleft : left.tag = referenceTag isMut)
    (hright : right.tag = referenceTag isMut) (hrow : s.refTypes[left.data]? = some row)
    (hrow' : s.refTypes[right.data]? = some row') :
    typesEqualInner s (fuel + 1) seen a b =
      typesEqualInner s fuel (seen ++ [(a, b)]) row.pointee row'.pointee := by
  rw [typesEqualInner, if_neg hne, if_neg hseen, ha, hb]
  refine (if_neg (not_not.2 (hleft.trans hright.symm))).trans ?_
  rw [hleft, hrow, hrow']
  cases isMut <;> rfl

theorem inner_tuple {row row' : TupleType} (hleft : left.tag = .tuple) (hright : right.tag = .tuple)
    (hrow : s.tupleTypes[left.data]? = some row) (hrow' : s.tupleTypes[right.data]? = some row') :
    typesEqualInner s (fuel + 1) seen a b =
      if row.elements.size ≠ row'.elements.size then some (false, seen ++ [(a, b)])
      else allEqual (typesEqualInner s fuel) (seen ++ [(a, b)])
        (row.elements.toList.zip row'.elements.toList) := by
  rw [typesEqualInner, if_neg hne, if_neg hseen, ha, hb]
  refine (if_neg (not_not.2 (hleft.trans hright.symm))).trans ?_
  rw [hleft, hrow, hrow']
  rfl

end Step

/-! ## Answers -/

/-- The indexes are of one type and pass for it. -/
def Same (p : Package) (table : Table) (a b : TypeIdx) : Prop :=
  ∀ m m', Site p table a m → Site p table b m' → m = m' ∧ Alike table.storage a b m

theorem same_iff (h : Compared p table) (hs : Site p table a m) (hs' : Site p table b m') :
    Same p table a b ↔ m = m' ∧ Alike table.storage a b m := by
  refine ⟨fun hsame => hsame m m' hs hs', fun hboth n n' hn hn' => ?_⟩
  obtain rfl := hs.unique h hn
  obtain rfl := hs'.unique h hn'
  exact hboth

/-- A comparison decides the proposition, and when it holds, all the pairs it adds are of one
type. -/
def Answers (p : Package) (table : Table) (seen : List (TypeIdx × TypeIdx))
    (answer : Option (Bool × List (TypeIdx × TypeIdx))) (holds : Prop) : Prop :=
  ∃ same seen', answer = some (same, seen') ∧ (same = true ↔ holds) ∧
    (same = true → ∃ new, seen' = seen ++ new ∧ ∀ pair ∈ new, Same p table pair.1 pair.2)

/-- The pairs that were met are of one type, or are still being compared, for types that are not
smaller. -/
def Met (p : Package) (table : Table) (size : Nat) (seen : List (TypeIdx × TypeIdx)) : Prop :=
  ∀ pair ∈ seen, Same p table pair.1 pair.2 ∨ ∃ m, Site p table pair.1 m ∧ size ≤ sizeOf m

section Answers

variable {size size' : Nat} {seen new : List (TypeIdx × TypeIdx)}
  {answer : Option (Bool × List (TypeIdx × TypeIdx))} {holds : Prop}

theorem Met.weaken (hsize : size ≤ size') (h : Met p table size' seen) : Met p table size seen := by
  intro pair hpair
  refine (h pair hpair).imp id fun hunder => ?_
  obtain ⟨m, hm, hle⟩ := hunder
  exact ⟨m, hm, Nat.le_trans hsize hle⟩

theorem Met.append (h : Met p table size seen)
    (hnew : ∀ pair ∈ new, Same p table pair.1 pair.2) : Met p table size (seen ++ new) := by
  intro pair hpair
  rcases List.mem_append.1 hpair with hpair | hpair
  · exact h pair hpair
  · exact .inl (hnew pair hpair)

/-- The pair is being compared while its parts are. -/
theorem Met.under (h : Met p table (sizeOf m + 1) seen) (hs : Site p table a m) :
    Met p table (sizeOf m) (seen ++ [(a, b)]) := by
  intro pair hpair
  rcases List.mem_append.1 hpair with hpair | hpair
  · exact h.weaken (Nat.le_succ _) pair hpair
  · rw [List.mem_singleton.1 hpair]
    exact .inr ⟨m, hs, Nat.le_refl _⟩

theorem Answers.congr {holds' : Prop} (h : Answers p table seen answer holds)
    (hiff : holds ↔ holds') : Answers p table seen answer holds' := by
  rwa [← propext hiff]

/-- The parts decide for the pair. -/
theorem Answers.of_parts (h : Answers p table (seen ++ [(a, b)]) answer holds)
    (hiff : holds ↔ Same p table a b) : Answers p table seen answer (Same p table a b) := by
  obtain ⟨same, seen', hrun, hsame, hnew⟩ := h.congr hiff
  refine ⟨same, seen', hrun, hsame, fun htrue => ?_⟩
  obtain ⟨new, rfl, hall⟩ := hnew htrue
  refine ⟨(a, b) :: new, List.append_assoc _ _ _, List.forall_mem_cons.2 ⟨hsame.1 htrue, hall⟩⟩

theorem Answers.yes (h : Same p table a b) :
    Answers p table seen (some (true, seen ++ [(a, b)])) (Same p table a b) :=
  ⟨true, _, rfl, iff_of_true rfl h, fun _ => ⟨[(a, b)], rfl, by simpa using h⟩⟩

theorem Answers.no (h : ¬ holds) (seen' : List (TypeIdx × TypeIdx)) :
    Answers p table seen (some (false, seen')) holds :=
  ⟨false, seen', rfl, iff_of_false Bool.false_ne_true h, nofun⟩

/-- **Pairs one after the other**: each is compared with those before it known. -/
theorem allEqual_answers {equal : List (TypeIdx × TypeIdx) → TypeIdx → TypeIdx →
      Option (Bool × List (TypeIdx × TypeIdx))} {pairs : List (TypeIdx × TypeIdx)}
    (h : ∀ pair ∈ pairs, ∀ seen, Met p table size seen →
      Answers p table seen (equal seen pair.1 pair.2) (Same p table pair.1 pair.2))
    (hmet : Met p table size seen) :
    Answers p table seen (allEqual equal seen pairs)
      (∀ pair ∈ pairs, Same p table pair.1 pair.2) := by
  induction pairs generalizing seen with
  | nil => exact ⟨true, seen, rfl, iff_of_true rfl nofun, fun _ => ⟨[], by simp, nofun⟩⟩
  | cons pair pairs ih =>
    obtain ⟨hfirst, hrest⟩ := List.forall_mem_cons.1 h
    obtain ⟨same, seen₁, hrun, hsame, hnew⟩ := hfirst seen hmet
    rw [allEqual, hrun]
    cases same with
    | false =>
      refine .no (fun hall => ?_) seen₁
      exact Bool.false_ne_true (hsame.2 (hall pair (List.mem_cons_self ..)))
    | true =>
      obtain ⟨new, rfl, hall⟩ := hnew rfl
      obtain ⟨same, seen₂, hrun₂, hsame₂, hnew₂⟩ := ih hrest (hmet.append hall)
      refine ⟨same, seen₂, hrun₂, ?_, fun htrue => ?_⟩
      · rw [hsame₂, List.forall_mem_cons]
        exact (and_iff_right (hsame.1 rfl)).symm
      · obtain ⟨new₂, rfl, hall₂⟩ := hnew₂ htrue
        refine ⟨new ++ new₂, List.append_assoc _ _ _, fun pair hpair => ?_⟩
        exact (List.mem_append.1 hpair).elim (hall pair) (hall₂ pair)

end Answers

/-- The pairs of slots are of the same types when the types are the same and the slots pass for
them. -/
theorem same_all (h : Compared p table) {slots slots' : List TypeIdx} {ms ms' : List Meaning}
    (hs : List.Forall₂ (Site p table) slots ms) (hs' : List.Forall₂ (Site p table) slots' ms')
    (hlen : slots.length = slots'.length) :
    (∀ pair ∈ slots.zip slots', Same p table pair.1 pair.2) ↔
      ms = ms' ∧
        ∀ part ∈ ms.zip (slots.zip slots'), Alike table.storage part.2.1 part.2.2 part.1 := by
  induction hs generalizing slots' ms' with
  | nil =>
    obtain rfl := List.length_eq_zero_iff.1 hlen.symm
    obtain rfl := List.forall₂_nil_left_iff.1 hs'
    simp
  | @cons slot m slots ms hfirst hrest ih =>
    cases hs' with
    | nil => cases hlen
    | @cons slot' m' slots' ms' hfirst' hrest' =>
      rw [List.zip_cons_cons, List.forall_mem_cons, same_iff h hfirst hfirst',
        ih hrest' (Nat.succ.inj hlen), List.zip_cons_cons, List.forall_mem_cons, List.cons.injEq]
      constructor
      · rintro ⟨⟨hm, halike⟩, hms, hall⟩
        exact ⟨⟨hm, hms⟩, halike, hall⟩
      · rintro ⟨⟨hm, hms⟩, halike, hall⟩
        exact ⟨⟨hm, halike⟩, hms, hall⟩

/-! ## Depth -/

/-- The node is one before the bound: parts lie before it. -/
def Within (table : Table) (n : Nat) (idx : TypeIdx) : Prop :=
  ∃ i < n, table.storage.types[i]? = table.storage.types[idx]? ∧
    (i ≤ primitiveIdx .str ∨ kPrimitiveTypeCount + 1 ≤ i)

theorem Within.pointee (h : Compared p table) {n : Nat} {isMut : Bool} {row : RefType}
    (hw : Within table (n + 1) a) (ha : table.storage.types[a]? = some left)
    (hleft : left.tag = referenceTag isMut) (hrow : table.storage.refTypes[left.data]? = some row)
    (hc : Call p table row.pointee m) : Within table n row.pointee := by
  obtain ⟨i, hi, hnode, hplace⟩ := hw
  obtain ⟨tag, k⟩ := left
  obtain rfl : tag = referenceTag isMut := hleft
  rw [ha] at hnode
  rcases hplace with hnamed | hbase
  · have hidx := h.checked.sound.plain_node hnamed hnode
    rw [← hidx] at hnamed
    exact absurd hnamed (referenceTag_unnamed isMut)
  · have hlt := h.tidy.below i isMut k row hbase hnode hrow
    exact ⟨row.pointee, Nat.lt_of_lt_of_le hlt (Nat.le_of_lt_succ hi), rfl, hc.reached h⟩

theorem Within.slot (h : Compared p table) {n : Nat} {row : TupleType}
    (hw : Within table (n + 1) a) (ha : table.storage.types[a]? = some left)
    (hleft : left.tag = .tuple) (hrow : table.storage.tupleTypes[left.data]? = some row)
    {slot : TypeIdx} (hslot : slot ∈ row.elements.toList) : Within table n slot := by
  obtain ⟨i, hi, hnode, -⟩ := hw
  obtain ⟨tag, k⟩ := left
  obtain rfl : tag = .tuple := hleft
  rw [ha] at hnode
  have hfalls : Falls table.storage i ⟨.tuple, k⟩ := by
    refine (h.checked.sound.falls i _ hnode).resolve_left ?_
    rintro ⟨entry, he, hs, hentry⟩
    obtain ⟨k', hk'⟩ := h.checked.sound.entries entry he hs
    have htag := congrArg TypeNode.tag (Option.some.inj (hentry.symm.trans hk'))
    cases hitem : entry.item <;> rw [hitem] at htag <;> cases htag
  have hlt := hfalls row.elements.toList (by simp [Storage.nodeParts, hrow]) slot hslot
  have hbase := h.tidy.slots row (List.mem_of_getElem? hrow) slot hslot
  exact ⟨slot, Nat.lt_of_lt_of_le hlt (Nat.le_of_lt_succ hi), rfl, .inr hbase⟩

/-- Every type of the source lies in the table. -/
theorem Site.within (h : Compared p table) (hs : Site p table a m) :
    Within table table.storage.types.length a := by
  obtain ⟨origin, node, ho, hnode, hcopy⟩ := hs
  refine ⟨origin, ho.lt h.checked, hnode.trans hcopy.symm, ?_⟩
  rcases ho with hc | ⟨entry, he, hstarted, rfl, -⟩
  · exact hc.reached h
  · refine .inr (Nat.not_lt.1 fun hlt => ?_)
    obtain ⟨k, hk⟩ := h.checked.sound.entries entry he hstarted
    refine absurd hk (h.checked.sound.primitive_ne hlt ?_)
    cases entry.item with
    | struct decl => exact .inl rfl
    | enum decl => exact .inr (.inl rfl)

/-! ## The comparison -/

/-- No nominal has the index of a named primitive. -/
theorem Sound.nominal_incomparable (h : Sound p table) {entry : NominalEntry}
    (he : entry ∈ table.nominals) (hs : entry.started = true) :
    (Meaning.node entry.type).comparable = false := by
  rw [Meaning.comparable, decide_eq_false_iff_not]
  intro hle
  obtain ⟨k, hk⟩ := h.entries entry he hs
  refine absurd hk (h.primitive_ne (Nat.lt_of_le_of_lt hle (by decide)) ?_)
  cases entry.item with
  | struct decl => exact .inl rfl
  | enum decl => exact .inr (.inl rfl)

/-- The nodes of one type have one tag. -/
theorem Shape.tag_eq (h : Sound p table) (hleft : Shape p table left m)
    (hright : Shape p table right m) : left.tag = right.tag := by
  have hnamed {tag : TypeTag} (hle : primitiveIdx tag ≤ primitiveIdx .str) :
      internPrimitives[primitiveIdx tag]? = some ⟨tag, 0⟩ := by
    cases tag <;> first | rfl | exact absurd hle (by decide)
  have hnominal {entry : NominalEntry} {n : Nat} (he : entry ∈ table.nominals)
      (hs : entry.started = true) (hle : n ≤ primitiveIdx .str) (heq : entry.type = n) : False := by
    have hno := h.nominal_incomparable he hs
    rw [heq, Meaning.comparable, decide_eq_false_iff_not] at hno
    exact hno hle
  generalize hm : m = m' at hright
  cases hleft with
  | plain hle =>
    cases hright with
    | plain hle' =>
      have hboth := hnamed hle
      rw [Meaning.node.inj hm, hnamed hle'] at hboth
      exact (congrArg TypeNode.tag (Option.some.inj hboth)).symm
    | nominal _ he hs _ => exact (hnominal he hs hle (Meaning.node.inj hm).symm).elim
    | _ => cases hm
  | nominal _ he hs hnode =>
    cases hright with
    | plain hle => exact (hnominal he hs hle (Meaning.node.inj hm)).elim
    | nominal _ he' hs' hnode' =>
      rw [Meaning.node.inj hm] at hnode
      rw [Option.some.inj (hnode.symm.trans hnode')]
    | _ => cases hm
  | marker _ =>
    cases hright with
    | marker _ => exact Meaning.marker.inj hm
    | _ => cases hm
  | ref htag _ _ =>
    cases hright with
    | ref htag' _ _ => rw [htag, htag', (Meaning.ref.inj hm).1]
    | _ => cases hm
  | tuple htag _ _ =>
    cases hright with
    | tuple htag' _ _ => rw [htag, htag']
    | _ => cases hm
  | option htag _ _ _ _ _ =>
    cases hright with
    | option htag' _ _ _ _ _ => rw [htag, htag']
    | _ => cases hm
  | result htag _ _ _ _ _ _ =>
    cases hright with
    | result htag' _ _ _ _ _ _ => rw [htag, htag']
    | _ => cases hm

theorem length_toList (range : IdxRange) : range.toList.length = range.size := List.length_range'

/-- **The comparison answers**, and it tells whether the two indexes are of one type and pass for
it. The induction is on the depth; pairs that are met again are of one type, since the types under
comparison get smaller. -/
theorem typesEqualInner_answers (h : Compared p table) : ∀ {fuel : Nat}
    {seen : List (TypeIdx × TypeIdx)} {a b : TypeIdx} {m m' : Meaning}, Within table fuel a →
    Site p table a m → Site p table b m' → Met p table (sizeOf m + 1) seen →
    Answers p table seen (typesEqualInner table.storage fuel seen a b) (Same p table a b) := by
  intro fuel
  induction fuel with
  | zero =>
    rintro seen a b m m' ⟨i, hi, -⟩
    exact absurd hi (Nat.not_lt_zero i)
  | succ fuel ih =>
    intro seen a b m m' hw hs hs' hmet
    by_cases hab : a = b
    · subst hab
      have hsame : Same p table a a := (same_iff h hs hs').2 ⟨hs.unique h hs', .inl rfl⟩
      rw [typesEqualInner, if_pos rfl]
      exact ⟨true, seen, rfl, iff_of_true rfl hsame, fun _ => ⟨[], (List.append_nil _).symm, nofun⟩⟩
    by_cases hseen : (a, b) ∈ seen
    · have hsame : Same p table a b := by
        rcases hmet _ hseen with hsame | ⟨n, hn, hle⟩
        · exact hsame
        · rw [hn.unique h hs] at hle
          exact absurd hle (Nat.not_succ_le_self _)
      rw [typesEqualInner, if_neg hab, if_pos hseen]
      exact ⟨true, seen, rfl, iff_of_true rfl hsame, fun _ => ⟨[], (List.append_nil _).symm, nofun⟩⟩
    obtain ⟨left, ha, hleft⟩ := hs.shape h
    obtain ⟨right, hb, hright⟩ := hs'.shape h
    by_cases htag : left.tag = right.tag
    case neg =>
      rw [inner_differ hab hseen ha hb htag]
      refine .no (fun hsame => htag ?_) _
      obtain ⟨rfl, -⟩ := (same_iff h hs hs').1 hsame
      exact hleft.tag_eq h.checked.sound hright
    -- a nominal passes only under its own index
    have hnominal (hkind : left.tag = .struct ∨ left.tag = .enum) (hm : m.comparable = false) :
        Answers p table seen (typesEqualInner table.storage (fuel + 1) seen a b)
          (Same p table a b) := by
      rw [inner_nominal hab hseen ha hb htag hkind]
      refine .no (fun hsame => ?_) _
      rcases ((same_iff h hs hs').1 hsame).2 with heq | ⟨node, hnode, -, hplain⟩ | hcomp
      · exact hab heq
      · cases ha.symm.trans hnode
        exact hkind.elim hplain.1 hplain.2
      · exact Bool.false_ne_true (hm.symm.trans hcomp)
    cases hleft with
    | plain hle =>
      rw [inner_atom hab hseen ha hb htag (.inl hle)]
      obtain rfl := hright.of_plain (htag ▸ hle)
      refine .yes ((same_iff h hs hs').2 ⟨by rw [htag], .inr (.inr ?_)⟩)
      exact decide_eq_true hle
    | marker hmarker =>
      rw [inner_atom hab hseen ha hb htag (.inr hmarker)]
      obtain rfl := hright.of_marker (htag ▸ hmarker)
      exact .yes ((same_iff h hs hs').2 ⟨by rw [htag], .inr (.inr rfl)⟩)
    | nominal hkind he hstarted _ =>
      exact hnominal hkind (h.checked.sound.nominal_incomparable he hstarted)
    | option hkind _ _ _ _ _ => exact hnominal (.inr hkind) rfl
    | result hkind _ _ _ _ _ _ => exact hnominal (.inr hkind) rfl
    | @ref isMut row m hkind hrow hc =>
      obtain ⟨row', m', rfl, hrow', hc'⟩ := hright.of_ref (htag.symm.trans hkind)
      rw [inner_ref hab hseen ha hb hkind (htag.symm.trans hkind) hrow hrow']
      have hp : Site p table row.pointee m := Origin.site h.checked (.inl hc)
      have hp' : Site p table row'.pointee m' := Origin.site h.checked (.inl hc')
      have hsize : sizeOf m + 1 ≤ sizeOf (Meaning.ref isMut m) := by
        rw [Meaning.ref.sizeOf_spec]
        omega
      refine (ih (hw.pointee h ha hkind hrow hc) hp hp' ((hmet.under hs).weaken hsize)).of_parts ?_
      rw [same_iff h hp hp', same_iff h hs hs', Meaning.ref.injEq]
      constructor
      · rintro ⟨rfl, halike⟩
        exact ⟨⟨rfl, rfl⟩, (alike_ref h ha hb hs hs' hkind (htag.symm.trans hkind) hrow hrow' hc
          hc').1 halike⟩
      · rintro ⟨⟨-, rfl⟩, halike⟩
        exact ⟨rfl, (alike_ref h ha hb hs hs' hkind (htag.symm.trans hkind) hrow hrow' hc hc').2
          halike⟩
    | @tuple row ms hkind hrow hslots =>
      obtain ⟨row', ms', rfl, hrow', hslots'⟩ := hright.of_tuple (htag.symm.trans hkind)
      rw [inner_tuple hab hseen ha hb hkind (htag.symm.trans hkind) hrow hrow']
      by_cases hlen : row.elements.size = row'.elements.size
      case neg =>
        rw [if_pos hlen]
        refine .no (fun hsame => hlen ?_) _
        obtain ⟨rfl⟩ := Meaning.tuple.inj ((same_iff h hs hs').1 hsame).1
        rw [← length_toList, ← length_toList, hslots.length_eq, hslots'.length_eq]
      rw [if_neg (not_not.2 hlen)]
      have hparts : row.elements.toList.length = row'.elements.toList.length := by
        rw [length_toList, length_toList, hlen]
      refine (allEqual_answers (fun pair hpair seen hmet => ?_) (hmet.under hs)).of_parts ?_
      · obtain ⟨n, hn⟩ := List.mem_iff_getElem?.1 hpair
        obtain ⟨hslot, hslot'⟩ := List.getElem?_zip_eq_some.1 hn
        obtain ⟨q, hq⟩ := getElem?_of_length hslots.length_eq.symm hslot
        obtain ⟨q', hq'⟩ := getElem?_of_length hslots'.length_eq.symm hslot'
        have hsite : Site p table pair.1 q := (List.forall₂_iff_zip.1 hslots).2
          (List.mem_of_getElem? (List.getElem?_zip_eq_some.2 ⟨hslot, hq⟩))
        have hsite' : Site p table pair.2 q' := (List.forall₂_iff_zip.1 hslots').2
          (List.mem_of_getElem? (List.getElem?_zip_eq_some.2 ⟨hslot', hq'⟩))
        have hsize : sizeOf q + 1 ≤ sizeOf (Meaning.tuple ms) := by
          have hlt := List.sizeOf_lt_of_mem (List.mem_of_getElem? hq)
          rw [Meaning.tuple.sizeOf_spec]
          omega
        exact ih (hw.slot h ha hkind hrow (List.mem_of_getElem? hslot)) hsite hsite'
          (hmet.weaken hsize)
      · rw [same_all h hslots hslots' hparts, same_iff h hs hs', Meaning.tuple.injEq]
        refine and_congr_right fun heq => ?_
        subst heq
        exact alike_tuple h ha hb hs hs' hkind (htag.symm.trans hkind) hrow hrow' hslots hslots'

/-- **What `types_equal` tells**: whether two indexes of annotations are of one type and pass for
it. -/
theorem typesEqual_answers (h : Compared p table) (hs : Site p table a m)
    (hs' : Site p table b m') : ∃ same, typesEqual table.storage a b = some same ∧
      (same = true ↔ m = m' ∧ Alike table.storage a b m) := by
  have hwithin : Within table (table.storage.types.length * table.storage.types.length + 1) a := by
    obtain ⟨i, hi, hplace⟩ := hs.within h
    exact ⟨i, Nat.lt_succ_of_lt (Nat.lt_of_lt_of_le hi (Nat.le_mul_self _)), hplace⟩
  have hempty : Met p table (sizeOf m + 1) [] := nofun
  obtain ⟨same, seen, hrun, hsame, -⟩ :=
    typesEqualInner_answers h hwithin hs hs' hempty
  refine ⟨same, ?_, hsame.trans (same_iff h hs hs')⟩
  unfold typesEqual
  rw [hrun]
  rfl

/-- **Type identity.** In every package, whatever its bodies make the checker resolve, `types_equal`
tells two annotations apart by their types if and only if, in case they have the same type, they
have the same index, or the same node which is no struct and no enum, or a type that is recognized
under any of its indexes. -/
theorem typesEqual_iff (p : Package) (calls : List BodyCall) :
    ∃ st, checkPackage p calls .start = some ((), st) ∧
      ∀ (a b : TypeIdx) (m m' : Meaning), Stands p st.table a m → Stands p st.table b m' →
        (((m = m' → typesEqual st.table.storage a b = some true) ∧
          (m ≠ m' → typesEqual st.table.storage a b = some false)) ↔
        (m = m' → Alike st.table.storage a b m)) := by
  obtain ⟨st, hrun, hchecked, htidy, htold⟩ := checkPackage_told p calls
  refine ⟨st, hrun, fun a b m m' hs hs' => ?_⟩
  have hcompared : Compared p st.table := ⟨hchecked, htidy, htold⟩
  obtain ⟨same, hsame, hiff⟩ :=
    typesEqual_answers hcompared (hs.site hcompared) (hs'.site hcompared)
  rw [hsame]
  constructor
  · rintro ⟨htrue, -⟩ heq
    exact (hiff.1 (Option.some.inj (htrue heq))).2
  · refine fun halike => ⟨fun heq => ?_, fun hne => ?_⟩
    · rw [hiff.2 ⟨heq, halike heq⟩]
    · rw [Bool.eq_false_iff.2 fun htrue => hne (hiff.1 htrue).1]

/-! ## A field of a struct type -/

/-- `struct N {}  struct S { n: N }  fn f(s: S) -> N { s.n }` -/
def fieldOfStruct : Package :=
  onlyRoot [unitStruct "N",
    .struct ⟨default, false, ⟨"S", default⟩, [⟨⟨"n", default⟩, namedType "N"⟩]⟩,
    .fn (fnOf "f" [⟨.ident default ⟨"s", default⟩, namedType "S"⟩] (some (namedType "N"))
      (some (.field default (.path default (pathTo ["s"])) ⟨"n", default⟩)))]

def declOf : NominalItem → Option StructItem
  | .struct decl => some decl
  | .enum _ => none

def isNode (idx : TypeIdx) : Meaning → Bool
  | .node other => idx = other
  | _ => false

/-- The first nominal and, where it is declared with that type, the first field of the second. -/
def firstField (p : Package) (table : Table) : Option (TypeIdx × TypeIdx) := do
  let first ← table.nominals[0]?
  let second ← table.nominals[1]?
  let decl ← declOf second.item
  let node ← table.storage.types[second.type]?
  let row ← table.storage.structTypes[← node.asStruct]?
  let field ← decl.fields[0]?
  let slot ← row.fields.toList[0]?
  if first.started && isNode first.type (typeAt p table second.module none field.type) then
    some (first.type, slot)
  else none

theorem stands_firstField (h : firstField p table = some (a, b)) :
    Stands p table a (.node a) ∧ Stands p table b (.node a) := by
  simp only [firstField, Option.bind_eq_bind, Option.bind_eq_some_iff] at h
  obtain ⟨first, hfirst, second, hsecond, decl, hdecl, ⟨tag, k⟩, hnode, k', hk, row, hrow, field,
    hfield, slot, hslot, h⟩ := h
  have hitem : second.item = .struct decl := by
    cases hitem : second.item with
    | struct decl' =>
      rw [hitem] at hdecl
      cases hdecl
      rfl
    | enum decl' =>
      rw [hitem] at hdecl
      cases hdecl
  obtain ⟨rfl, rfl⟩ : tag = .struct ∧ k = k' := by simpa [TypeNode.asStruct] using hk
  split at h
  · next hboth =>
    cases h
    obtain ⟨hstarted, hm⟩ := Bool.and_eq_true_iff.1 hboth
    refine ⟨.nominal (List.mem_of_getElem? hfirst) hstarted, ?_⟩
    have hstands : Stands p table b (typeAt p table second.module none field.type) :=
      .field (List.mem_of_getElem? hsecond) hitem hnode hrow hfield hslot
    unfold isNode at hm
    split at hm
    · next hnode => rwa [hnode, ← of_decide_eq_true hm] at hstands
    · cases hm
  · cases h

/-- The field of `N` in `S` is of the type `N` and does not compare equal to it, and so the program
that returns it is rejected. -/
theorem fieldOfStruct_differs : (∃ st, checkPackage fieldOfStruct [] .start = some ((), st) ∧
    ∃ a b m, Stands fieldOfStruct st.table a m ∧ Stands fieldOfStruct st.table b m ∧
      typesEqual st.table.storage a b = some false) ∧
    reported (Bodies.checkPackage fieldOfStruct .start) =
      some [(4220, "type mismatch in field: expected 'struct', found 'struct'")] := by
  refine ⟨?_, by decide +kernel⟩
  have hrun : (checkPackage fieldOfStruct [] .start).map (fun r =>
      (firstField fieldOfStruct r.2.table, typesEqual r.2.table.storage 17 19)) =
        some (some (17, 19), some false) := by decide +kernel
  obtain ⟨⟨_, st⟩, hst, hfacts⟩ := Option.map_eq_some_iff.1 hrun
  obtain ⟨hfirst, hequal⟩ := Prod.mk.inj hfacts
  obtain ⟨ha, hb⟩ := stands_firstField hfirst
  exact ⟨st, hst, 17, 19, _, ha, hb, hequal⟩

end Alcy.Analyzer.Types
