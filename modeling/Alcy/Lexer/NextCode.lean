import Alcy.Lexer.Lookahead

/-! # The look ahead and the next code token

Doc comments and inserted semicolons aside, the look ahead at a newline and the token that the lexer
comes to next say the same about whether the construct goes on. They differ on ranges and on block
comments without end, and on nothing else.
-/
namespace Alcy.Lexer

variable {src : Source} {s s' u : LexState}

/-! ## The next code token -/

/-- The kind of the first token from here on that is neither a doc comment nor made of a newline. -/
inductive NextCode (src : Source) : LexState → TokenKind → Prop where
  | finish {s : LexState} : src.atEnd s.pos = true → NextCode src s .eof
  | passes {s s' : LexState} {kind : TokenKind} : src.atEnd s.pos = false →
      src.round s = some s' →
      (s'.out = s.out ∨ src.byte s.pos = ch '\n' ∨
        ∃ span, s'.out = s.out ++ [⟨.docComment, span⟩]) →
      NextCode src s' kind → NextCode src s kind
  | token {s s' : LexState} {kind : TokenKind} {span : Diag.Span} : src.atEnd s.pos = false →
      src.round s = some s' → src.byte s.pos ≠ ch '\n' → s'.out = s.out ++ [⟨kind, span⟩] →
      kind ≠ .docComment → NextCode src s kind

/-- There always is one, the end at least. -/
theorem nextCode_total (src : Source) : ∀ (n : Nat) (s : LexState), src.size - s.pos ≤ n →
    ∃ kind, NextCode src s kind := by
  intro n
  induction n with
  | zero =>
    intro s hn
    exact ⟨.eof, .finish (Source.atEnd_eq_true.2 (by omega))⟩
  | succ n ih =>
    intro s hn
    cases hin : src.atEnd s.pos with
    | true => exact ⟨.eof, .finish hin⟩
    | false =>
      have hlt := Source.atEnd_eq_false.1 hin
      obtain ⟨u, hu, hpos⟩ := round_total hin
      obtain ⟨kind, hkind⟩ := ih u (by omega)
      cases round_cases hin hu with
      | space _ _ hout => exact ⟨kind, .passes hin hu (hout.imp id .inl) hkind⟩
      | comment _ _ hout => exact ⟨kind, .passes hin hu (.inl hout) hkind⟩
      | token k span hat hout _ _ _ =>
        by_cases hdoc : k = .docComment
        · exact ⟨kind, .passes hin hu (.inr (.inr ⟨span, hdoc ▸ hout⟩)) hkind⟩
        · refine ⟨k, .token hin hu (fun hnl => ?_) hout hdoc⟩
          rw [AtToken, hnl] at hat
          exact absurd hat.1 (by decide)

/-- It is a token of the output; before it come doc comments and semicolons only. -/
theorem NextCode.appended {kind : TokenKind} {t : LexState} (h : NextCode src s kind)
    (htoken : src.tokenize = some t) (hs : Course src .start s) :
    ∃ passed span, s.out ++ passed ++ [⟨kind, span⟩] <+: t.out ∧
      ∀ p ∈ passed, p.kind = .docComment ∨ p.kind = .semicolon := by
  obtain ⟨e, -, hend, ht, hall⟩ := tokenize_course htoken
  induction h with
  | @finish s hfin =>
    obtain ⟨hrest, -⟩ := hall s hs
    cases hrest with
    | refl =>
      refine ⟨[], src.spanAt e.pos 0, ?_, by simp⟩
      rw [ht, List.append_nil]
      exact List.prefix_refl (e.out ++ [⟨.eof, src.spanAt e.pos 0⟩])
    | step hin _ _ =>
      rw [hfin] at hin
      cases hin
  | @passes s u kind hin hround hout _ ih =>
    have hstep : Course src s u := .step hin hround (.refl u)
    obtain ⟨passed, span, hprefix, hpassed⟩ := ih (hs.trans hstep)
    obtain ⟨more, hmore, hkinds⟩ : ∃ more, u.out = s.out ++ more ∧
        ∀ p ∈ more, p.kind = .docComment ∨ p.kind = .semicolon := by
      obtain hsame | hnl | ⟨sp, hdoc⟩ := hout
      · exact ⟨[], by rw [hsame, List.append_nil], by simp⟩
      · have hnewline : src.newline s = some u := by
          rw [← hround, Source.round, hnl]
          rfl
        obtain ⟨-, ⟨-, -, hsemi⟩ | ⟨-, hsame⟩⟩ := newline_cases hnewline
        · exact ⟨_, hsemi, by simp⟩
        · exact ⟨[], by rw [hsame, List.append_nil], by simp⟩
      · exact ⟨_, hdoc, by simp⟩
    refine ⟨more ++ passed, span, ?_, ?_⟩
    · rw [← List.append_assoc s.out, ← hmore]
      exact hprefix
    · intro p hp
      exact (List.mem_append.1 hp).elim (hkinds p) (hpassed p)
  | @token s u kind span hin hround _ hout _ =>
    have hstep : Course src s u := .step hin hround (.refl u)
    refine ⟨[], span, ?_, by simp⟩
    rw [List.append_nil, ← hout]
    exact (hall u (hs.trans hstep)).2

/-! ## What makes a doc comment -/

/-- Only a comment makes a doc comment. -/
def MakesCode (s s' : LexState) : Prop :=
  ∃ kind span, s'.out = s.out ++ [⟨kind, span⟩] ∧ kind ≠ .docComment

theorem makesCode_error (start length code : Nat) (message : String) (pos : Nat) :
    MakesCode s (src.emitError start length code message { s with pos }) :=
  ⟨.error, _, rfl, by decide⟩

theorem MakesCode.ite {p : Bool} {a b : LexState} (ha : MakesCode s a) (hb : MakesCode s b) :
    MakesCode s (if p then a else b) := by
  cases p with
  | true => exact ha
  | false => exact hb

theorem lexNumber_makesCode : MakesCode s (src.lexNumber s) := by
  have herror : ∀ start stop, MakesCode s (src.invalidNumber start stop s) :=
    fun start stop => makesCode_error _ _ _ _ _
  have hsuffix : ∀ start pos isFloat, MakesCode s (src.lexSuffix start pos isFloat s) := by
    intro start pos isFloat
    refine ⟨if isFloat then .float else .integer, _, rfl, ?_⟩
    cases isFloat with
    | true => decide
    | false => decide
  unfold Source.lexNumber
  dsimp only
  split
  · unfold Source.lexPrefixed
    dsimp only
    exact (herror _ _).ite ((herror _ _).ite ((herror _ _).ite (hsuffix _ _ _)))
  · exact (herror _ _).ite (hsuffix _ _ _)

theorem symbolKind_code (c n m : UInt8) :
    ∀ kind width, Source.symbolKind c n m = some (kind, width) → kind ≠ .docComment := by
  have hite : ∀ {p : Bool} {a b : Option (TokenKind × Nat)},
      (∀ kind width, a = some (kind, width) → kind ≠ .docComment) →
      (∀ kind width, b = some (kind, width) → kind ≠ .docComment) →
      ∀ kind width, (if p then a else b) = some (kind, width) → kind ≠ .docComment := by
    intro p a b ha hb
    cases p with
    | true => exact ha
    | false => exact hb
  unfold Source.symbolKind
  repeat' refine hite ?_ ?_
  all_goals
    intro kind width hk
    cases hk
  all_goals decide

theorem lexToken_makesCode (hrun : src.lexToken s = some s') : MakesCode s s' := by
  have hkeyword : ∀ keyword ∈ kKeywords, keyword.2 ≠ .docComment := by decide
  unfold Source.lexToken at hrun
  dsimp only at hrun
  split at hrun
  · rw [← Option.some.inj hrun]
    exact ⟨.error, _, rfl, by decide⟩
  split at hrun
  · rw [← Option.some.inj hrun]
    refine ⟨_, _, rfl, ?_⟩
    split
    · decide
    unfold lookupKeyword
    cases hfind : kKeywords.find? fun keyword => bytesOf keyword.1 == _ with
    | none => decide
    | some keyword => exact hkeyword keyword (List.mem_of_find?_eq_some hfind)
  split at hrun
  · rw [← Option.some.inj hrun]
    exact lexNumber_makesCode
  split at hrun
  · unfold Source.lexString at hrun
    obtain ⟨⟨stop, f⟩, -, hrun⟩ := Option.bind_eq_some_iff.1 hrun
    rw [← Option.some.inj hrun]
    exact (makesCode_error _ _ _ _ _).ite
      ((makesCode_error _ _ _ _ _).ite ⟨.string, _, rfl, by decide⟩)
  split at hrun
  · unfold Source.lexChar at hrun
    obtain ⟨⟨stop, f⟩, -, hrun⟩ := Option.bind_eq_some_iff.1 hrun
    rw [← Option.some.inj hrun]
    exact (makesCode_error _ _ _ _ _).ite
      ((makesCode_error _ _ _ _ _).ite ((makesCode_error _ _ _ _ _).ite ⟨.char, _, rfl, by decide⟩))
  · rw [← Option.some.inj hrun, Source.lexSymbol]
    cases hrow : Source.symbolKind (src.byte s.pos) (src.byte (s.pos + 1)) (src.byte (s.pos + 2)) with
    | none => exact ⟨.error, _, rfl, by decide⟩
    | some row => exact ⟨row.1, _, rfl, symbolKind_code _ _ _ row.1 row.2 hrow⟩

theorem MakesCode.kind {kind : TokenKind} {span : Diag.Span} (h : MakesCode s s')
    (hout : s'.out = s.out ++ [⟨kind, span⟩]) : kind ≠ .docComment := by
  obtain ⟨k, span', hout', hk⟩ := h
  rw [kind_unique hout hout']
  exact hk

/-! ## Where it starts -/

/-- Where the next code token starts: doc comments are passed over like other comments. -/
inductive StartsCode (src : Source) : Nat → Nat → Prop where
  | here {pos i : Nat} : Starts src pos i → ¬ OpensDoc src i → StartsCode src pos i
  | doc {pos j i : Nat} : Starts src pos j → OpensDoc src j →
      StartsCode src (src.skipWhile (· != ch '\n') j) i → StartsCode src pos i

theorem StartsCode.unique {pos i j : Nat} (h : StartsCode src pos i) (k : StartsCode src pos j) :
    i = j := by
  induction h with
  | here hstarts hdoc =>
    cases k with
    | here kstarts _ => exact hstarts.unique kstarts
    | doc kstarts kdoc _ => exact absurd (hstarts.unique kstarts ▸ kdoc) hdoc
  | doc hstarts hdoc _ ih =>
    cases k with
    | here kstarts kdoc => exact absurd (kstarts.unique hstarts ▸ hdoc) kdoc
    | doc kstarts _ krest =>
      obtain rfl := hstarts.unique kstarts
      exact ih krest

/-- What is passed over before a start is passed over before the code behind it. -/
theorem StartsCode.space {pos i : Nat} (hspace : isSpace (src.byte pos) = true)
    (h : StartsCode src (pos + 1) i) : StartsCode src pos i := by
  cases h with
  | here hstarts hdoc => exact .here (.space hspace hstarts) hdoc
  | doc hstarts hdoc hrest => exact .doc (.space hspace hstarts) hdoc hrest

theorem StartsCode.comment {pos stop i : Nat} (hcomment : Comments src pos stop)
    (h : StartsCode src stop i) : StartsCode src pos i := by
  cases h with
  | here hstarts hdoc => exact .here (.comment hcomment hstarts) hdoc
  | doc hstarts hdoc hrest => exact .doc (.comment hcomment hstarts) hdoc hrest

/-- A doc comment runs to the end of its line. -/
theorem round_doc (hdoc : OpensDoc src s.pos) (hrun : src.round s = some s') :
    s'.pos = src.skipWhile (· != ch '\n') s.pos := by
  obtain ⟨h1, h2, h3⟩ := hdoc
  have hslash : ∀ i, src.byte i = ch '/' →
      src.skipWhile (· != ch '\n') i = src.skipWhile (· != ch '\n') (i + 1) := by
    intro i hi
    refine Source.skipWhile_of_pos (Source.lt_of_byte_ne ?_) ?_
    · rw [hi]
      decide
    · rw [hi]
      decide
  have hthird : src.byte (s.pos + 2) = ch '/' := by
    rw [Bool.and_eq_true, beq_iff_eq] at h3
    exact h3.1
  unfold Source.round at hrun
  dsimp only at hrun
  rw [h1, h2, if_neg (by decide), if_neg (by decide), if_pos (by decide), Option.some.injEq] at hrun
  rw [← hrun, Source.lineComment, if_pos h3, hslash _ h1, hslash _ h2, hslash _ hthird]
  rfl

theorem KindAt.doc_kind {i : Nat} {kind : TokenKind} (h : KindAt src i kind)
    (hdoc : OpensDoc src i) : kind = .docComment := by
  cases h with
  | finish hend => exact absurd hdoc (atToken_end hend).2.not_doc
  | doc => rfl
  | unfinished hu => exact absurd hu hdoc.not_unfinished
  | code _ _ hno _ _ _ => exact absurd hdoc hno.not_doc

theorem nextCode_starts {kind : TokenKind} (h : NextCode src s kind) :
    ∃ i, StartsCode src s.pos i ∧ KindAt src i kind := by
  induction h with
  | @finish s hend =>
    obtain ⟨i, hstarts, hkind⟩ := nextToken_starts (.finish hend)
    cases hstarts with
    | here hat =>
      have hno := (atToken_end (Source.atEnd_eq_true.1 hend)).2
      exact ⟨_, .here (.here hat) hno.not_doc, hkind⟩
    | space hspace _ =>
      rw [(atToken_end (Source.atEnd_eq_true.1 hend)).1] at hspace
      cases hspace
    | comment hcomment _ =>
      obtain ⟨hspace, hno⟩ := atToken_end (Source.atEnd_eq_true.1 hend)
      exact absurd ⟨hspace, .inl hno⟩ hcomment.not_atToken
  | @passes s u kind hin hrun hout _ ih =>
    obtain ⟨i, hstarts, hkind⟩ := ih
    cases round_cases hin hrun with
    | space hspace hpos _ => exact ⟨i, .space hspace (hpos ▸ hstarts), hkind⟩
    | comment _ hcomment _ => exact ⟨i, .comment hcomment hstarts, hkind⟩
    | token k span hat hout' _ hunfinished hcode =>
      obtain hout | hnl | ⟨span', hout⟩ := hout
      · exact absurd (hout.symm.trans hout') out_ne
      · rw [AtToken, hnl] at hat
        exact absurd hat.1 (by decide)
      · obtain rfl := kind_unique hout hout'
        obtain ⟨hspace, hno | hopens | hopens⟩ := hat
        · exact absurd rfl ((lexToken_makesCode (hcode hno)).kind hout)
        · refine ⟨i, .doc (.here ⟨hspace, .inr (.inl hopens)⟩) hopens ?_, hkind⟩
          rw [← round_doc hopens hrun]
          exact hstarts
        · cases hunfinished hopens
  | @token s u kind span hin hrun hnl hout hne =>
    obtain ⟨i, hstarts, hkind⟩ := nextToken_starts (.token hin hrun hnl hout)
    refine ⟨i, .here hstarts fun hdoc => hne ?_, hkind⟩
    exact hkind.doc_kind hdoc

/-! ## The look ahead -/

/-- The look ahead comes by where a token starts. -/
theorem skipAhead_through {pos i : Nat} (h : Starts src pos i) : ∀ {fuel r : Nat},
    src.skipAhead fuel pos = some r → ∃ fuel', src.skipAhead fuel' i = some r := by
  induction h with
  | here _ =>
    intro fuel r hrun
    exact ⟨fuel, hrun⟩
  | space hspace _ ih =>
    intro fuel r hrun
    cases fuel with
    | zero => cases hrun
    | succ fuel =>
      rw [skipAhead_space hspace] at hrun
      exact ih hrun
  | comment hcomment _ ih =>
    intro fuel r hrun
    cases fuel with
    | zero => cases hrun
    | succ fuel =>
      cases hcomment with
      | line h1 h2 _ =>
        rw [skipAhead_line h1 h2] at hrun
        exact ih hrun
      | block h1 h2 hblock =>
        rw [skipAhead_block h1 h2 hblock] at hrun
        exact ih hrun

/-- The look ahead stops where the code token starts, or runs through a comment that has no end. -/
theorem skipAhead_code {pos i : Nat} (h : StartsCode src pos i) : ∀ {fuel r : Nat},
    src.skipAhead fuel pos = some r →
      (NoComment src i → r = i) ∧ (Unfinished src i → src.size ≤ r) := by
  induction h with
  | here hstarts _ =>
    intro fuel r hrun
    exact skipAhead_starts hstarts hrun
  | doc hstarts hdoc _ ih =>
    intro fuel r hrun
    obtain ⟨fuel', hrun'⟩ := skipAhead_through hstarts hrun
    cases fuel' with
    | zero => cases hrun'
    | succ fuel' =>
      rw [skipAhead_line hdoc.1 hdoc.2.1] at hrun'
      exact ih hrun'

/-- At every newline where the lexer looks ahead, what it finds and the next code token say the same
about whether the construct goes on. -/
def LooksRight (src : Source) : Prop :=
  ∀ s s' look next, Course src .start s → src.byte s.pos = ch '\n' →
    insertsSemi s.lastSignificant = true → src.peekNextKind (s.pos + 1) = some look →
    src.newline s = some s' → NextCode src s' next → suppressSemi look = suppressSemi next

/-- What the look ahead says of the next code token. They differ on ranges and on open comments. -/
theorem look_code {pos i : Nat} {look next : TokenKind} (hstarts : StartsCode src pos i)
    (hkind : KindAt src i next) (hnext : next ≠ .docComment)
    (hlook : src.peekNextKind pos = some look) :
    suppressSemi look = suppressSemi next ↔ ¬ OpensRange src i ∧ ¬ Unfinished src i := by
  rw [peekNextKind_eq] at hlook
  obtain ⟨r, hr, rfl⟩ := Option.map_eq_some_iff.1 hlook
  obtain ⟨hcode, hopen⟩ := skipAhead_code hstarts hr
  cases hkind with
  | finish hend =>
    have hno := (atToken_end hend).2
    obtain rfl := hcode hno
    rw [lookKind, if_pos (Source.atEnd_eq_true.2 hend)]
    refine iff_of_true rfl ⟨fun hrange => ?_, hno.not_unfinished⟩
    rw [OpensRange, src.byte_of_le hend] at hrange
    exact absurd hrange.1 (by decide)
  | doc hdoc => exact absurd rfl hnext
  | unfinished hu =>
    rw [lookKind, if_pos (Source.atEnd_eq_true.2 (hopen hu))]
    exact iff_of_false (by decide) fun h => h.2 hu
  | @code s s' _ span hs hin hno hspace hrun hout =>
    obtain rfl := hcode hno
    subst hs
    have hend : src.atEnd s.pos = false := Source.atEnd_eq_false.2 hin
    have hforeseen := lexToken_foreseen hend hrun hout
    rw [Foreseen] at hforeseen
    rw [Bool.eq_iff_iff, hforeseen]
    constructor
    · intro h
      refine ⟨fun hrange => ?_, hno.not_unfinished⟩
      have hlook : suppressSemi (lookKind src s.pos) = true := by
        rw [lookKind, if_neg (by simp [hend]), hrange.1]
        rfl
      exact (h.1 hlook).2 hrange
    · rintro ⟨hrange, -⟩
      exact (and_iff_left hrange).symm

theorem NextCode.not_doc {kind : TokenKind} (h : NextCode src s kind) : kind ≠ .docComment := by
  induction h with
  | finish => decide
  | passes _ _ _ _ ih => exact ih
  | token _ _ _ _ hne => exact hne

theorem newline_startsCode {next : TokenKind} (hrun : src.newline s = some s')
    (hnext : NextCode src s' next) :
    ∃ i, StartsCode src (s.pos + 1) i ∧ KindAt src i next := by
  rw [← (newline_cases hrun).1]
  exact nextCode_starts hnext

theorem LooksRight.guarded (h : LooksRight src) (hs : Course src .start s)
    (hnl : src.byte s.pos = ch '\n') (hinserts : insertsSemi s.lastSignificant = true) {i : Nat}
    (hi : StartsCode src (s.pos + 1) i) : ¬ OpensRange src i ∧ ¬ Unfinished src i := by
  have hlt : s.pos < src.size := Source.lt_of_byte_ne (by rw [hnl]; decide)
  obtain ⟨s', hrun, -⟩ := newline_step hnl
  obtain ⟨next, hnext⟩ := nextCode_total src _ s' (Nat.le_refl _)
  obtain ⟨r, hr⟩ := @skipAhead_total src (src.size + 1) (s.pos + 1) hlt (by omega)
  have hlook : src.peekNextKind (s.pos + 1) = some (lookKind src r) := by
    rw [peekNextKind_eq, hr, Option.map_some]
  obtain ⟨j, hj, hkind⟩ := newline_startsCode hrun hnext
  obtain rfl := hj.unique hi
  exact (look_code hj hkind hnext.not_doc hlook).1
    (h s s' _ next hs hnl hinserts hlook hrun hnext)

/-- **When the look ahead agrees with the lexer**: at every newline where it is consulted, the next
code token opens no range, and no block comment without end stands in its place. -/
theorem looksRight_iff (src : Source) : LooksRight src ↔
    ∀ s, Course src .start s → src.byte s.pos = ch '\n' → insertsSemi s.lastSignificant = true →
      ∀ i, StartsCode src (s.pos + 1) i → ¬ OpensRange src i ∧ ¬ Unfinished src i := by
  constructor
  · intro h s hs hnl hinserts i hi
    exact h.guarded hs hnl hinserts hi
  · intro h s s' look next hs hnl hinserts hlook hrun hnext
    obtain ⟨i, hi, hkind⟩ := newline_startsCode hrun hnext
    exact (look_code hi hkind hnext.not_doc hlook).2 (h s hs hnl hinserts i hi)

/-- `a` and `..b` on two lines -/
def splitRange : Source := ⟨bytesOf "a\n..b", 0⟩

/-- The look ahead takes the range for a member access, so that no `;` is inserted before it. -/
theorem splitRange_not_right : ¬ LooksRight splitRange ∧
    splitRange.tokenize.map (fun s => s.out.map (·.kind)) =
      some [.ident, .dotDot, .ident, .eof] := by
  refine ⟨fun h => ?_, by decide⟩
  obtain ⟨s, hs, hfacts⟩ : ∃ s, Course splitRange .start s ∧
      (splitRange.byte s.pos, s.lastSignificant, s.pos) = (ch '\n', .ident, 1) := by
    have hrun : (splitRange.rounds 1 .start).map (fun s =>
        (splitRange.byte s.pos, s.lastSignificant, s.pos)) = some (ch '\n', .ident, 1) := by decide
    obtain ⟨s, hs, hfacts⟩ := Option.map_eq_some_iff.1 hrun
    exact ⟨s, rounds_course hs, hfacts⟩
  simp only [Prod.mk.injEq] at hfacts
  obtain ⟨hnl, hlast, hpos⟩ := hfacts
  have hat : Starts splitRange (s.pos + 1) 2 := by
    rw [hpos]
    refine .here ⟨by decide, .inl ?_⟩
    rintro ⟨hslash, -⟩
    exact absurd hslash (by decide)
  have hdoc : ¬ OpensDoc splitRange 2 := fun hdoc => absurd hdoc.1 (by decide)
  exact (h.guarded hs hnl (by rw [hlast]; rfl) (.here hat hdoc)).1 ⟨by decide, by decide⟩

end Alcy.Lexer
