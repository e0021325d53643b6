import Alcy.Lexer.Lexer
import Alcy.Parser.TypeText

/-! # What `parse_path` takes

The grammar has `segment ("::" ident)*`. The loop of `parse_path` looks for a segment behind each
`::`, but takes the keywords too, and when it finds none it keeps the `::` and stops. Here the
tokens may be any: those that the cursor passes over are left out of what is ahead. -/
namespace Alcy.Parser
open Alcy.Ast Alcy.Diag
open Alcy.Lexer (Token TokenKind)
open PM

/-! ## The grammar -/

/-- `("::" ident)*`, with its identifiers. -/
inductive PathRest : List Token → List Token → Prop where
  | done : PathRest [] []
  | next {colons segment : Token} {tokens segments : List Token} : colons.kind = .colonColon →
      segment.kind = .ident → PathRest tokens segments →
      PathRest (colons :: segment :: tokens) (segment :: segments)

/-- `segment ("::" ident)*`, with its segments. -/
inductive PathTokens : List Token → List Token → Prop where
  | path {segment : Token} {tokens segments : List Token} : isPathSegment segment.kind = true →
      PathRest tokens segments → PathTokens (segment :: tokens) (segment :: segments)

/-- The tokens from a position on, without those that the cursor passes over. -/
def Input.ahead (inp : Input) (pos : Nat) : List Token :=
  (inp.tokens.drop pos).filter fun t => significant t.kind

/-- The tokens from a position up to another, without those. -/
def Input.between (inp : Input) (pos stop : Nat) : List Token :=
  ((inp.tokens.take stop).drop pos).filter fun t => significant t.kind

/-- A path of the grammar, the longest one from `s` on, lies between the states, and `path` has its
segments. -/
structure ParsedPath (inp : Input) (s s' : PState) (path : Path) : Prop where
  production : ∃ segments, PathTokens (inp.between s.pos s'.pos) segments ∧
    path.segments = segments.map inp.tokenIdent
  maximal : ∀ tokens segments, PathTokens tokens segments → tokens <+: inp.ahead s.pos →
    tokens.length ≤ (inp.between s.pos s'.pos).length

/-- The segments go on up to a `::` at the end of the file. -/
def cutShort : List Token → Bool
  | [] => false
  | [colons] => colons.kind == .colonColon
  | colons :: t :: rest => colons.kind == .colonColon &&
      (t.kind == .eof || isPathSegment t.kind && cutShort rest)

/-- An identifier follows each `::`. -/
def identsFollow : List Token → Bool
  | colons :: t :: rest => colons.kind != .colonColon || t.kind == .ident && identsFollow rest
  | _ => true

/-- No path begins at a position, or one that the grammar or the end of the file stops. -/
def Input.spelledOut (inp : Input) (pos : Nat) : Bool :=
  match inp.tokens[pos]? with
  | none => true
  | some t => !isPathSegment t.kind || cutShort (inp.ahead (pos + 1)) ||
      identsFollow (inp.ahead (pos + 1))

/-- What the loop of `parse_path` takes behind a segment, and the segments in it: nothing where it
fails. -/
def afterSegment : List Token → Option (List Token × List Token)
  | [] => some ([], [])
  | [colons] => if colons.kind = .colonColon then none else some ([], [])
  | colons :: t :: rest =>
    if colons.kind = .colonColon then
      if t.kind = .eof then none
      else if isPathSegment t.kind then
        (afterSegment rest).map fun (tokens, segments) => (colons :: t :: tokens, t :: segments)
      else some ([colons], [])
    else some ([], [])

/-! ## Where the cursor stands -/

variable {inp : Input} {s s' : PState} {t : Token} {ts : List Token}

/-- The cursor is at the first of these tokens, and the others come after it. -/
structure Stands (inp : Input) (ts : List Token) (s : PState) : Prop where
  token : inp.tokens[s.pos]? = ts.head?
  ahead : inp.ahead s.pos = ts

theorem Input.drop_cons (h : inp.tokens[s.pos]? = some t) :
    inp.tokens.drop s.pos = t :: inp.tokens.drop (s.pos + 1) := by
  obtain ⟨hlt, rfl⟩ := List.getElem?_eq_some_iff.1 h
  exact List.drop_eq_getElem_cons hlt

theorem Input.ahead_significant (h : inp.tokens[s.pos]? = some t) (ht : significant t.kind = true) :
    inp.ahead s.pos = t :: inp.ahead (s.pos + 1) := by
  rw [Input.ahead, Input.drop_cons h]
  exact List.filter_cons_of_pos ht

/-- Between and ahead make up what was ahead. -/
theorem Input.between_append_ahead {pos stop : Nat} (h : pos ≤ stop) :
    inp.between pos stop ++ inp.ahead stop = inp.ahead pos := by
  have hsplit : (inp.tokens.take stop).drop pos ++ inp.tokens.drop stop = inp.tokens.drop pos := by
    rw [List.drop_take, ← Nat.add_sub_cancel' h, Nat.add_sub_cancel_left, ← List.drop_drop,
      List.take_append_drop]
  rw [Input.between, Input.ahead, Input.ahead, ← List.filter_append, hsplit]

theorem Stands.of_segment (h : inp.tokens[s.pos]? = some t) (ht : significant t.kind = true) :
    Stands inp (t :: inp.ahead (s.pos + 1)) s :=
  ⟨h, Input.ahead_significant h ht⟩

theorem Stands.length_lt (h : Stands inp ts s) : ts.length < inp.loopFuel := by
  have hlen := List.length_filter_le (fun t => significant t.kind) (inp.tokens.drop s.pos)
  rw [← h.ahead, Input.loopFuel, Input.ahead]
  rw [List.length_drop] at hlen
  omega

theorem Stands.significant (h : Stands inp (t :: ts) s) : significant t.kind = true := by
  have hmem : t ∈ inp.ahead s.pos := h.ahead ▸ List.mem_cons_self
  exact (List.mem_filter.1 hmem).2

theorem skipFrom_stands (tokens : List Token) (s : PState) (h : inp.tokens.drop s.pos = tokens) :
    s.pos ≤ (inp.skipFrom tokens s).pos ∧
      Stands inp (inp.ahead s.pos) (inp.skipFrom tokens s) := by
  induction tokens generalizing s with
  | nil =>
    refine ⟨Nat.le_refl _, ?_, rfl⟩
    rw [Input.ahead, h, ← List.head?_drop]
    exact congrArg List.head? h
  | cons u rest ih =>
    have hu : inp.tokens[s.pos]? = some u := by
      rw [← List.head?_drop, h]
      rfl
    have hrest : inp.tokens.drop (s.pos + 1) = rest := by
      rw [← List.drop_drop, h]
      rfl
    have hstep : ∀ s' : PState, s'.pos = s.pos + 1 → significant u.kind = false →
        s.pos ≤ (inp.skipFrom rest s').pos ∧
          Stands inp (inp.ahead s.pos) (inp.skipFrom rest s') := by
      intro s' hs' hsig
      obtain ⟨hle, hstands⟩ := ih s' (hs' ▸ hrest)
      have hahead : inp.ahead s'.pos = inp.ahead s.pos := by
        rw [hs', Input.ahead, Input.ahead, h, hrest, List.filter_cons_of_neg (by simp [hsig])]
      exact ⟨by omega, hahead ▸ hstands⟩
    unfold Input.skipFrom
    split
    · next hc => exact hstep _ rfl (by rcases hc with hc | hc <;> rw [hc] <;> rfl)
    split
    · next hr => exact hstep _ rfl (by rw [significant, hr, Bool.not_true, Bool.and_false])
    · next hc hr =>
      have hsig : significant u.kind = true := by
        rw [not_or] at hc
        simp [significant, hc.1, hc.2, hr]
      exact ⟨Nat.le_refl _, by rw [Input.ahead_significant hu hsig]; exact hu, rfl⟩

theorem Stands.advance (h : Stands inp (t :: ts) s) (ht : t.kind ≠ .eof) :
    ∃ s', inp.advance s = .ok (some (), s') ∧ s.pos < s'.pos ∧ Stands inp ts s' := by
  have htoken : inp.tokens[s.pos]? = some t := h.token
  obtain ⟨hle, hstands⟩ := skipFrom_stands (inp.tokens.drop (s.pos + 1))
    { s with pos := s.pos + 1, previousSpan := t.span } rfl
  have hahead := h.ahead
  rw [Input.ahead_significant htoken h.significant, List.cons.injEq] at hahead
  refine ⟨_, ?_, hle, hahead.2 ▸ hstands⟩
  simp only [Input.advance, htoken, if_neg ht]
  rfl

theorem Stands.accept (h : Stands inp (t :: ts) s) (ht : t.kind ≠ .eof) :
    ∃ s', inp.accept t.kind s = .ok (some true, s') ∧ s.pos < s'.pos ∧ Stands inp ts s' := by
  obtain ⟨s', hrun, hlt, hs'⟩ := h.advance ht
  refine ⟨s', ?_, hlt, hs'⟩
  rw [Input.accept, bind_run, check_run h.token, beq_self_eq_true, bne_iff_ne.2 ht]
  simp only [Bool.and_self, if_true]
  rw [bind_run, hrun]
  rfl

theorem Stands.atEnd (h : Stands inp ts s) :
    inp.atEnd s = .ok (some (ts.head?.all fun t => t.kind == .eof), s) := by
  rw [← h.token, Input.atEnd]
  cases inp.tokens[s.pos]? with
  | none => rfl
  | some t => rfl

theorem Stands.decline (h : Stands inp ts s) {kind : TokenKind}
    (hne : ∀ t, ts.head? = some t → t.kind ≠ kind) :
    inp.accept kind s = .ok (some false, s) := by
  have hcheck : inp.check kind s = .ok (some false, s) := by
    cases ts with
    | nil =>
      rw [Input.check, bind_run, h.atEnd]
      rfl
    | cons t ts => rw [check_run h.token, beq_eq_false_iff_ne.2 (hne t rfl), Bool.and_false]
  rw [Input.accept, bind_run, hcheck]
  rfl

/-! ## One round -/

variable {colons next : Token} {acc : List Ident}

theorem segmentsRound_stop (h : Stands inp (t :: ts) s) (ht : isPathSegment t.kind = true)
    (hne : ∀ u, ts.head? = some u → u.kind ≠ .colonColon) :
    Gives (inp.segmentsRound acc) s fun r s' =>
      r = (acc ++ [inp.tokenIdent t], false) ∧ s.pos < s'.pos ∧ Stands inp ts s' := by
  have hlive : t.kind ≠ .eof := by
    intro hk
    rw [hk] at ht
    cases ht
  obtain ⟨s1, hrun, hlt, hs1⟩ := h.advance hlive
  exact .step (peek_run h.token) (.yes ht (.step hrun (.step (hs1.decline hne)
    (.no Bool.false_ne_true (.pure ⟨rfl, hlt, hs1⟩)))))

theorem segmentsRound_colons (h : Stands inp (t :: colons :: ts) s)
    (ht : isPathSegment t.kind = true) (hcolons : colons.kind = .colonColon) :
    ∃ s1, s.pos < s1.pos ∧ Stands inp ts s1 ∧ inp.segmentsRound acc s =
      (if ts.head?.all fun t => t.kind == .eof then
        (inp.expect .ident "path segment" >>= fun _ => fail) s1
      else .ok (some (acc ++ [inp.tokenIdent t], true), s1)) := by
  have hlive : t.kind ≠ .eof := by
    intro hk
    rw [hk] at ht
    cases ht
  obtain ⟨s1, hrun, hlt, hs1⟩ := h.advance hlive
  obtain ⟨s2, haccept, hlt', hs2⟩ := hs1.accept (by rw [hcolons]; exact TokenKind.noConfusion)
  rw [hcolons] at haccept
  refine ⟨s2, Nat.lt_trans hlt hlt', hs2, ?_⟩
  rw [Input.segmentsRound, bind_run, peek_run h.token]
  simp only [ht, if_true]
  rw [bind_run, hrun]
  simp only
  rw [bind_run, haccept]
  simp only [if_true]
  rw [bind_run, hs2.atEnd]
  cases ts.head?.all fun t => t.kind == .eof with
  | true => rfl
  | false => rfl

/-- What is no segment ends a path that has one. -/
theorem segmentsRound_other (h : Stands inp (t :: ts) s) (ht : isPathSegment t.kind = false)
    (hacc : acc ≠ []) : inp.segmentsRound acc s = .ok (some (acc, false), s) := by
  rw [Input.segmentsRound, bind_run, peek_run h.token]
  simp only [ht, Bool.false_eq_true, if_false, List.isEmpty_iff, hacc]
  rfl

/-! ## The loop -/

/-- The loop takes what `afterSegment` says. -/
theorem segmentsRounds_take {fuel : Nat} {tokens segments : List Token} (h : Stands inp (t :: ts) s)
    (ht : isPathSegment t.kind = true) (hfuel : (t :: ts).length < fuel)
    (htake : afterSegment ts = some (tokens, segments)) :
    Gives (loopM inp.segmentsRound fuel acc) s fun result s' =>
      result = acc ++ (t :: segments).map inp.tokenIdent ∧ s.pos < s'.pos ∧
        ts = tokens ++ inp.ahead s'.pos := by
  have hstop : ∀ {s : PState} {t : Token} {ts : List Token} {acc : List Ident} {fuel : Nat},
      Stands inp (t :: ts) s → isPathSegment t.kind = true →
      (∀ u, ts.head? = some u → u.kind ≠ .colonColon) → (t :: ts).length < fuel →
      Gives (loopM inp.segmentsRound fuel acc) s fun result s' =>
        result = acc ++ [t].map inp.tokenIdent ∧ s.pos < s'.pos ∧ ts = [] ++ inp.ahead s'.pos := by
    intro s t ts acc fuel h ht hne hfuel
    obtain ⟨fuel, rfl⟩ := Nat.exists_eq_succ_of_ne_zero (Nat.ne_zero_of_lt hfuel)
    refine .stop ((segmentsRound_stop h ht hne).mono fun r s' hr => ?_)
    obtain ⟨rfl, hlt, hs'⟩ := hr
    exact ⟨rfl, rfl, hlt, hs'.ahead.symm⟩
  induction ts using afterSegment.induct generalizing s t acc fuel tokens segments with
  | case1 =>
    cases htake
    exact hstop h ht (fun _ hu => by cases hu) hfuel
  | case2 colons hcolons =>
    rw [afterSegment, if_pos hcolons] at htake
    cases htake
  | case3 colons hcolons =>
    rw [afterSegment, if_neg hcolons] at htake
    cases htake
    exact hstop h ht (fun _ hu => by cases hu; exact hcolons) hfuel
  | case4 colons next rest hcolons hend =>
    rw [afterSegment, if_pos hcolons, if_pos hend] at htake
    cases htake
  | case5 colons next rest hcolons hend hnext ih =>
    rw [afterSegment, if_pos hcolons, if_neg hend, if_pos hnext, Option.map_eq_some_iff] at htake
    obtain ⟨⟨tokens, segments⟩, htake, heq⟩ := htake
    cases heq
    obtain ⟨fuel, rfl⟩ := Nat.exists_eq_succ_of_ne_zero (Nat.ne_zero_of_lt hfuel)
    obtain ⟨s1, hlt, hs1, hround⟩ := segmentsRound_colons h ht hcolons
    rw [if_neg (by simpa using hend)] at hround
    refine .round ⟨_, s1, hround, rfl, hlt, ?_⟩
    have hlen : (next :: rest).length < fuel := by
      simp only [List.length_cons] at hfuel ⊢
      omega
    refine (ih hs1 hnext hlen htake).mono fun result s' hr => ⟨?_, Nat.lt_trans hlt hr.2.1, ?_⟩
    · rw [hr.1, List.append_assoc]
      rfl
    · rw [List.cons_append, List.cons_append, ← hr.2.2]
  | case6 colons next rest hcolons hend hnext =>
    rw [afterSegment, if_pos hcolons, if_neg hend, if_neg hnext] at htake
    cases htake
    obtain ⟨fuel, rfl⟩ := Nat.exists_eq_succ_of_ne_zero (Nat.ne_zero_of_lt hfuel)
    obtain ⟨s1, hlt, hs1, hround⟩ := segmentsRound_colons h ht hcolons
    rw [if_neg (by simpa using hend)] at hround
    have hpos : 0 < fuel := by
      simp only [List.length_cons] at hfuel
      omega
    obtain ⟨fuel, rfl⟩ := Nat.exists_eq_succ_of_ne_zero (Nat.pos_iff_ne_zero.1 hpos)
    have hlast := segmentsRound_other hs1 (Bool.eq_false_iff.2 hnext)
      (List.append_ne_nil_of_right_ne_nil acc (List.cons_ne_nil (inp.tokenIdent t) []))
    refine .round ⟨_, s1, hround, rfl, hlt, .stop ⟨_, s1, hlast, rfl, rfl, hlt, ?_⟩⟩
    rw [hs1.ahead]
    rfl
  | case7 colons next rest hcolons =>
    rw [afterSegment, if_neg hcolons] at htake
    cases htake
    exact hstop h ht (fun _ hu => by cases hu; exact hcolons) hfuel

/-- At the end of the file the round ends in a null pointer. -/
theorem segmentsRounds_cut {fuel : Nat} {result : List Ident} (h : Stands inp (t :: colons :: ts) s)
    (ht : isPathSegment t.kind = true) (hcolons : colons.kind = .colonColon)
    (hend : (ts.head?.all fun t => t.kind == .eof) = true) :
    loopM inp.segmentsRound fuel acc s ≠ .ok (some result, s') := by
  intro hrun
  cases fuel with
  | zero => cases hrun
  | succ fuel =>
    obtain ⟨s1, -, -, hround⟩ := segmentsRound_colons h ht hcolons
    rw [if_pos hend] at hround
    have hnull : ∀ {r : List Ident × Bool} {u : PState},
        inp.segmentsRound acc s ≠ .ok (some r, u) := by
      intro r u hr
      rw [hround] at hr
      obtain ⟨-, u1, -, hr⟩ := bind_some hr
      cases hr
    rcases loopM_some hrun with hstop | ⟨acc', u, hgo, -⟩
    · exact hnull hstop
    · exact hnull hgo

/-- The loop fails where `afterSegment` says so. -/
theorem segmentsRounds_fail {fuel : Nat} {result : List Ident} (h : Stands inp (t :: ts) s)
    (ht : isPathSegment t.kind = true) (hfail : afterSegment ts = none) :
    loopM inp.segmentsRound fuel acc s ≠ .ok (some result, s') := by
  induction ts using afterSegment.induct generalizing s t acc fuel with
  | case1 => cases hfail
  | case2 colons hcolons => exact segmentsRounds_cut h ht hcolons rfl
  | case3 colons hcolons =>
    rw [afterSegment, if_neg hcolons] at hfail
    cases hfail
  | case4 colons next rest hcolons hnext =>
    exact segmentsRounds_cut h ht hcolons (beq_iff_eq.2 hnext)
  | case5 colons next rest hcolons hlive hnext ih =>
    rw [afterSegment, if_pos hcolons, if_neg hlive, if_pos hnext, Option.map_eq_none_iff] at hfail
    intro hrun
    cases fuel with
    | zero => cases hrun
    | succ fuel =>
      obtain ⟨s1, -, hs1, hround⟩ := segmentsRound_colons h ht hcolons
      rw [if_neg (by simpa using hlive)] at hround
      rcases loopM_some hrun with hstop | ⟨acc', u, hgo, hrest⟩
      · rw [hround] at hstop
        cases hstop
      · rw [hround] at hgo
        cases hgo
        exact ih hs1 hnext hfail hrest
  | case6 colons next rest hcolons hlive hnext =>
    rw [afterSegment, if_pos hcolons, if_neg hlive, if_neg hnext] at hfail
    cases hfail
  | case7 colons next rest hcolons =>
    rw [afterSegment, if_neg hcolons] at hfail
    cases hfail

/-! ## The whole path -/

theorem significant_of_segment {k : TokenKind} (h : isPathSegment k = true) :
    significant k = true := by
  cases k <;> first | rfl | cases h

theorem parsePath_takes {tokens segments : List Token} (h : inp.tokens[s.pos]? = some t)
    (ht : isPathSegment t.kind = true)
    (htake : afterSegment (inp.ahead (s.pos + 1)) = some (tokens, segments)) :
    Gives inp.parsePath s fun path s' => path.segments = (t :: segments).map inp.tokenIdent ∧
      inp.between s.pos s'.pos = t :: tokens ∧
        inp.ahead (s.pos + 1) = tokens ++ inp.ahead s'.pos := by
  have hsig := significant_of_segment ht
  have hs := Stands.of_segment h hsig
  have hcount : s.pos < inp.count := (List.getElem?_eq_some_iff.1 h).1
  refine .here (.bind (segmentsRounds_take hs ht hs.length_lt htake) fun result s' hr =>
    .spanned hcount fun span => ⟨hr.1, ?_, hr.2.2⟩)
  have hsplit := @Input.between_append_ahead inp _ _ (Nat.le_of_lt hr.2.1)
  rw [hs.ahead, hr.2.2] at hsplit
  exact List.append_cancel_right (hsplit.trans (List.cons_append ..).symm)

/-- A path that was parsed begins at the cursor, and `afterSegment` says what it is. -/
theorem parsePath_some {path : Path} (hrun : inp.parsePath s = .ok (some path, s')) :
    ∃ t tokens segments, inp.tokens[s.pos]? = some t ∧ isPathSegment t.kind = true ∧
      afterSegment (inp.ahead (s.pos + 1)) = some (tokens, segments) ∧
        path.segments = (t :: segments).map inp.tokenIdent ∧
          inp.between s.pos s'.pos = t :: tokens ∧
            inp.ahead (s.pos + 1) = tokens ++ inp.ahead s'.pos := by
  have hpath := hrun
  obtain ⟨mark, s1, hmark, hrun⟩ := bind_some hrun
  cases hmark
  obtain ⟨result, s2, hloop, -⟩ := bind_some hrun
  replace hloop : loopM inp.segmentsRound (inp.tokens.length + 1) [] s = .ok (some result, s2) :=
    hloop
  have hround : ∃ r u, inp.segmentsRound [] s = .ok (some r, u) := by
    rcases loopM_some hloop with hstop | ⟨acc', u, hgo, -⟩
    · exact ⟨_, _, hstop⟩
    · exact ⟨_, _, hgo⟩
  obtain ⟨r, u, hround⟩ := hround
  obtain ⟨t, s3, hpeek, hround⟩ := bind_some hround
  rw [Input.peek] at hpeek
  split at hpeek
  · cases hpeek
  · next t' ht =>
    cases hpeek
    cases hseg : isPathSegment t.kind with
    | false =>
      rw [hseg, if_neg Bool.false_ne_true] at hround
      replace hround : (inp.expect .ident "path" >>= fun _ => fail) s = .ok (some r, u) := hround
      obtain ⟨-, u1, -, hround⟩ := bind_some hround
      cases hround
    | true =>
      cases htake : afterSegment (inp.ahead (s.pos + 1)) with
      | none =>
        have hs := Stands.of_segment ht (significant_of_segment hseg)
        exact absurd hloop (segmentsRounds_fail hs hseg htake)
      | some taken =>
        exact ⟨t, taken.1, taken.2, ht, hseg, rfl, (parsePath_takes ht hseg htake).of_run hpath⟩

/-! ## Against the grammar -/

theorem afterSegment_none : afterSegment ts = none ↔ cutShort ts = true := by
  fun_induction afterSegment ts with
  | case1 => simp [cutShort]
  | case2 colons hcolons => simp [cutShort, hcolons]
  | case3 colons hcolons => simp [cutShort, hcolons]
  | case4 colons next rest hcolons hnext => simp [cutShort, hcolons, hnext]
  | case5 colons next rest hcolons hlive hnext ih =>
    simp [cutShort, hcolons, hlive, hnext, Option.map_eq_none_iff, ih]
  | case6 colons next rest hcolons hlive hnext => simp [cutShort, hcolons, hlive, hnext]
  | case7 colons next rest hcolons => simp [cutShort, hcolons]

theorem identsFollow_of_pathRest {tokens segments segments' : List Token}
    (htake : afterSegment ts = some (tokens, segments)) (h : PathRest tokens segments') :
    identsFollow ts = true := by
  induction ts using afterSegment.induct generalizing tokens segments segments' with
  | case1 => rfl
  | case2 => rfl
  | case3 => rfl
  | case4 colons next rest hcolons hnext =>
    rw [afterSegment, if_pos hcolons, if_pos hnext] at htake
    cases htake
  | case5 colons next rest hcolons hlive hnext ih =>
    rw [afterSegment, if_pos hcolons, if_neg hlive, if_pos hnext, Option.map_eq_some_iff] at htake
    obtain ⟨⟨tokens, segments⟩, htake, heq⟩ := htake
    cases heq
    cases h with
    | next _ hident h => simp [identsFollow, hident, ih htake h]
  | case6 colons next rest hcolons hlive hnext =>
    -- A `::` alone is no end of a path.
    rw [afterSegment, if_pos hcolons, if_neg hlive, if_neg hnext] at htake
    cases htake
    cases h
  | case7 colons next rest hcolons => simp [identsFollow, hcolons]

theorem pathRest_of_identsFollow {tokens segments : List Token}
    (htake : afterSegment ts = some (tokens, segments)) (h : identsFollow ts = true) :
    PathRest tokens segments ∧ ∀ rest, ts = tokens ++ rest →
      ∀ u, rest.head? = some u → u.kind ≠ .colonColon := by
  induction ts using afterSegment.induct generalizing tokens segments with
  | case1 =>
    cases htake
    refine ⟨.done, fun rest hrest u hu => ?_⟩
    rw [← show ([] : List Token) = rest from hrest] at hu
    cases hu
  | case2 colons hcolons =>
    rw [afterSegment, if_pos hcolons] at htake
    cases htake
  | case3 colons hcolons =>
    rw [afterSegment, if_neg hcolons] at htake
    cases htake
    refine ⟨.done, fun rest hrest u hu => ?_⟩
    rw [← show [colons] = rest from hrest] at hu
    cases hu
    exact hcolons
  | case4 colons next rest hcolons hnext =>
    rw [afterSegment, if_pos hcolons, if_pos hnext] at htake
    cases htake
  | case5 colons next rest hcolons hlive hnext ih =>
    rw [afterSegment, if_pos hcolons, if_neg hlive, if_pos hnext, Option.map_eq_some_iff] at htake
    obtain ⟨⟨tokens, segments⟩, htake, heq⟩ := htake
    cases heq
    rw [identsFollow, hcolons, bne_self_eq_false, Bool.false_or, Bool.and_eq_true,
      beq_iff_eq] at h
    obtain ⟨hrest, hnot⟩ := ih htake h.2
    refine ⟨.next hcolons h.1 hrest, fun tail htail => hnot tail ?_⟩
    exact (List.cons.inj (List.cons.inj htail).2).2
  | case6 colons next rest hcolons hlive hnext =>
    rw [identsFollow, hcolons, bne_self_eq_false, Bool.false_or, Bool.and_eq_true,
      beq_iff_eq] at h
    rw [h.1] at hnext
    exact absurd rfl hnext
  | case7 colons next rest hcolons =>
    rw [afterSegment, if_neg hcolons] at htake
    cases htake
    refine ⟨.done, fun tail htail u hu => ?_⟩
    rw [← show colons :: next :: rest = tail from htail] at hu
    cases hu
    exact hcolons

/-- A path of the grammar goes on with a `::` or not at all. -/
theorem PathRest.longer {tokens segments rest segments' : List Token} (h : PathRest tokens segments)
    (h' : PathRest (tokens ++ rest) segments') :
    rest = [] ∨ ∃ colons, rest.head? = some colons ∧ colons.kind = .colonColon := by
  induction h generalizing segments' with
  | done =>
    cases h' with
    | done => exact .inl rfl
    | next hcolons _ _ => exact .inr ⟨_, rfl, hcolons⟩
  | next _ _ _ ih =>
    cases h' with
    | next _ _ h' => exact ih h'

theorem PathTokens.longest {tokens segments rest tokens' segments' : List Token}
    (h : PathRest tokens segments) (hnot : ∀ u, rest.head? = some u → u.kind ≠ .colonColon)
    (h' : PathTokens tokens' segments') (hfront : tokens' <+: t :: (tokens ++ rest)) :
    tokens'.length ≤ (t :: tokens).length := by
  refine Nat.le_of_not_lt fun hlonger => ?_
  have hshort : t :: tokens <+: t :: (tokens ++ rest) := List.prefix_append (t :: tokens) rest
  obtain ⟨more, rfl⟩ := List.prefix_of_prefix_length_le hshort hfront (Nat.le_of_lt hlonger)
  cases h' with
  | path _ h' =>
    rcases h.longer h' with rfl | ⟨colons, hhead, hcolons⟩
    · exact absurd hlonger (by rw [List.append_nil]; exact Nat.lt_irrefl _)
    · obtain ⟨tail, htail⟩ := hfront
      rw [List.cons_append, List.cons_append, List.append_assoc, List.cons.injEq] at htail
      have hrest : more ++ tail = rest := List.append_cancel_left htail.2
      refine hnot colons ?_ hcolons
      rw [← hrest, List.head?_append, hhead]
      rfl

/-- Elsewhere a path is made of tokens that are none. -/
theorem parsePath_strays {taken : List Token × List Token} (ht : inp.tokens[s.pos]? = some t)
    (hseg : isPathSegment t.kind = true) (htake : afterSegment (inp.ahead (s.pos + 1)) = some taken)
    (hidents : identsFollow (inp.ahead (s.pos + 1)) = false) :
    ∃ path s', inp.parsePath s = .ok (some path, s') ∧ ¬ ParsedPath inp s s' path := by
  obtain ⟨path, s', hrun, -, hbetween, -⟩ := parsePath_takes ht hseg htake
  refine ⟨path, s', hrun, fun h => ?_⟩
  obtain ⟨segments', hpath, -⟩ := h.production
  rw [hbetween] at hpath
  cases hpath with
  | path _ hrest =>
    rw [identsFollow_of_pathRest htake hrest] at hidents
    cases hidents

/-- **Paths are parsed by the grammar** exactly where an identifier follows each `::` of theirs, or
the end of the file comes behind one: a keyword is taken as a segment, and what is no segment leaves
the `::` behind it in the path. -/
theorem parsePath_exact (inp : Input) (s : PState) :
    (∀ path s', inp.parsePath s = .ok (some path, s') → ParsedPath inp s s' path) ↔
      inp.spelledOut s.pos = true := by
  unfold Input.spelledOut
  constructor
  · intro h
    split
    · rfl
    · next t ht =>
      rw [Bool.or_assoc, Bool.or_eq_true, Bool.or_eq_true, Bool.not_eq_true']
      cases hseg : isPathSegment t.kind with
      | false => exact .inl rfl
      | true =>
        refine .inr ?_
        cases htake : afterSegment (inp.ahead (s.pos + 1)) with
        | none => exact .inl (afterSegment_none.1 htake)
        | some taken =>
          refine .inr (Bool.not_eq_false _ ▸ fun hidents => ?_)
          obtain ⟨path, s', hrun, hnot⟩ := parsePath_strays ht hseg htake hidents
          exact hnot (h path s' hrun)
  · intro h path s' hrun
    obtain ⟨t, tokens, segments, ht, hseg, htake, hsegments, hbetween, hahead⟩ :=
      parsePath_some hrun
    rw [ht] at h
    have hidents : identsFollow (inp.ahead (s.pos + 1)) = true := by
      simp only [hseg, Bool.not_true, Bool.false_or, Bool.or_eq_true] at h
      refine h.resolve_left fun hcut => ?_
      rw [afterSegment_none.2 hcut] at htake
      cases htake
    obtain ⟨hrest, hends⟩ := pathRest_of_identsFollow htake hidents
    refine ⟨⟨t :: segments, ?_, hsegments⟩, fun tokens' segments' hpath hfront => ?_⟩
    · rw [hbetween]
      exact .path hseg hrest
    · rw [Input.ahead_significant ht (significant_of_segment hseg), hahead] at hfront
      rw [hbetween]
      exact hpath.longest hrest (hends _ hahead) hfront

/-- `use a::;` -/
def trailingColons : Input where
  tokens := [⟨.use, ⟨0, 0, 3⟩⟩, ⟨.ident, ⟨0, 4, 1⟩⟩, ⟨.colonColon, ⟨0, 5, 2⟩⟩,
    ⟨.semicolon, ⟨0, 7, 1⟩⟩, ⟨.eof, ⟨0, 8, 0⟩⟩]
  bytes := Lexer.bytesOf "use a::;"
  file := 0

/-- `use a::self;` -/
def innerKeyword : Input where
  tokens := [⟨.use, ⟨0, 0, 3⟩⟩, ⟨.ident, ⟨0, 4, 1⟩⟩, ⟨.colonColon, ⟨0, 5, 2⟩⟩,
    ⟨.self, ⟨0, 7, 4⟩⟩, ⟨.semicolon, ⟨0, 11, 1⟩⟩, ⟨.eof, ⟨0, 12, 0⟩⟩]
  bytes := Lexer.bytesOf "use a::self;"
  file := 0

theorem trailingColons_parsed :
    (trailingColons.parsePath ⟨1, ⟨0, 0, 3⟩, 0, true, []⟩ =
        .ok (some ⟨[⟨"a", ⟨0, 4, 1⟩⟩], ⟨0, 4, 3⟩⟩, ⟨3, ⟨0, 5, 2⟩, 0, true, []⟩) ∧
      ¬ ParsedPath trailingColons ⟨1, ⟨0, 0, 3⟩, 0, true, []⟩ ⟨3, ⟨0, 5, 2⟩, 0, true, []⟩
        ⟨[⟨"a", ⟨0, 4, 1⟩⟩], ⟨0, 4, 3⟩⟩) ∧
    (innerKeyword.parsePath ⟨1, ⟨0, 0, 3⟩, 0, true, []⟩ =
        .ok (some ⟨[⟨"a", ⟨0, 4, 1⟩⟩, ⟨"self", ⟨0, 7, 4⟩⟩], ⟨0, 4, 7⟩⟩,
          ⟨4, ⟨0, 7, 4⟩, 0, true, []⟩) ∧
      ¬ ParsedPath innerKeyword ⟨1, ⟨0, 0, 3⟩, 0, true, []⟩ ⟨4, ⟨0, 7, 4⟩, 0, true, []⟩
        ⟨[⟨"a", ⟨0, 4, 1⟩⟩, ⟨"self", ⟨0, 7, 4⟩⟩], ⟨0, 4, 7⟩⟩) := by
  refine ⟨⟨rfl, fun h => ?_⟩, rfl, fun h => ?_⟩
  · obtain ⟨segments, hpath, -⟩ := h.production
    replace hpath : PathTokens [⟨.ident, ⟨0, 4, 1⟩⟩, ⟨.colonColon, ⟨0, 5, 2⟩⟩] segments := hpath
    cases hpath with
    | path _ hrest => cases hrest
  · obtain ⟨segments, hpath, -⟩ := h.production
    replace hpath : PathTokens [⟨.ident, ⟨0, 4, 1⟩⟩, ⟨.colonColon, ⟨0, 5, 2⟩⟩, ⟨.self, ⟨0, 7, 4⟩⟩]
      segments := hpath
    cases hpath with
    | path _ hrest =>
      cases hrest with
      | next _ hident _ => cases hident

end Alcy.Parser
