import Alcy.Lexer.Course

/-! # The look ahead

`peek_next_kind` reads a few bytes past whitespace and comments. What it finds is set against the
token that the lexer makes next: the two agree on whether the construct goes on, except where a range,
a doc comment or a comment without end comes next.
-/
namespace Alcy.Lexer
open Source (isBlank symbolKind)

variable {src : Source} {s s' u : LexState}

/-! ## What stands where -/

/-- Three slashes and no fourth. -/
def OpensDoc (src : Source) (pos : Nat) : Prop :=
  src.byte pos = ch '/' ∧ src.byte (pos + 1) = ch '/' ∧
    (src.byte (pos + 2) == ch '/' && src.byte (pos + 3) != ch '/') = true

/-- A block comment that the input does not close. -/
def Unfinished (src : Source) (pos : Nat) : Prop :=
  src.byte pos = ch '/' ∧ src.byte (pos + 1) = ch '*' ∧
    ∃ stop depth, src.blockComment (src.size + 1) (pos + 2) 1 = some (stop, depth) ∧ 0 < depth

/-- A comment without a token. -/
inductive Comments (src : Source) (pos : Nat) : Nat → Prop where
  | line : src.byte pos = ch '/' → src.byte (pos + 1) = ch '/' → ¬ OpensDoc src pos →
      Comments src pos (src.skipWhile (· != ch '\n') pos)
  | block {stop : Nat} : src.byte pos = ch '/' → src.byte (pos + 1) = ch '*' →
      src.blockComment (src.size + 1) (pos + 2) 1 = some (stop, 0) → Comments src pos stop

/-- The end, or what gives a token. -/
def AtToken (src : Source) (pos : Nat) : Prop :=
  isSpace (src.byte pos) = false ∧ (NoComment src pos ∨ OpensDoc src pos ∨ Unfinished src pos)

/-- Where the next token starts. -/
inductive Starts (src : Source) : Nat → Nat → Prop where
  | here {pos : Nat} : AtToken src pos → Starts src pos pos
  | space {pos i : Nat} : isSpace (src.byte pos) = true → Starts src (pos + 1) i → Starts src pos i
  | comment {pos stop i : Nat} : Comments src pos stop → Starts src stop i → Starts src pos i

/-- What a round does. -/
inductive Round (src : Source) (s s' : LexState) : Prop where
  | space : isSpace (src.byte s.pos) = true → s'.pos = s.pos + 1 →
      (s'.out = s.out ∨ src.byte s.pos = ch '\n') → Round src s s'
  | comment : isSpace (src.byte s.pos) = false → Comments src s.pos s'.pos → s'.out = s.out →
      Round src s s'
  | token (kind : TokenKind) (span : Diag.Span) : AtToken src s.pos →
      s'.out = s.out ++ [⟨kind, span⟩] →
      (OpensDoc src s.pos → kind = .docComment) → (Unfinished src s.pos → kind = .error) →
      (NoComment src s.pos → src.lexToken s = some s') → Round src s s'

theorem not_space {c : UInt8} (h : c = ch '/') : isSpace c = false := by
  rw [h]
  decide

theorem noComment_of_not {pos : Nat}
    (hline : ¬ (src.byte pos == ch '/' && src.byte (pos + 1) == ch '/') = true)
    (hblock : ¬ (src.byte pos == ch '/' && src.byte (pos + 1) == ch '*') = true) :
    NoComment src pos := by
  rintro ⟨h1, h2 | h2⟩
  · exact hline (by simp [h1, h2])
  · exact hblock (by simp [h1, h2])

/-- A state that was left by one token has one kind of last token. -/
theorem kind_unique {kind kind' : TokenKind} {span span' : Diag.Span}
    (h : s'.out = s.out ++ [⟨kind, span⟩]) (h' : s'.out = s.out ++ [⟨kind', span'⟩]) :
    kind = kind' := by
  have heq := List.append_cancel_left (h.symm.trans h')
  rw [List.cons.injEq, Token.mk.injEq] at heq
  exact heq.1.1

theorem OpensDoc.not_unfinished {pos : Nat} (h : OpensDoc src pos) : ¬ Unfinished src pos := by
  intro hu
  have := h.2.1.symm.trans hu.2.1
  exact absurd this (by decide)

theorem NoComment.not_doc {pos : Nat} (h : NoComment src pos) : ¬ OpensDoc src pos :=
  fun hdoc => h ⟨hdoc.1, .inl hdoc.2.1⟩

theorem NoComment.not_unfinished {pos : Nat} (h : NoComment src pos) : ¬ Unfinished src pos :=
  fun hu => h ⟨hu.1, .inr hu.2.1⟩

theorem round_cases (hin : src.atEnd s.pos = false) (hrun : src.round s = some s') :
    Round src s s' := by
  unfold Source.round at hrun
  dsimp only at hrun
  by_cases hblank : isBlank (src.byte s.pos) = true
  · rw [if_pos hblank, Option.some.injEq] at hrun
    rw [← hrun]
    exact .space (by simp [isSpace, hblank]) rfl (.inl rfl)
  rw [if_neg hblank] at hrun
  by_cases hnl : (src.byte s.pos == ch '\n') = true
  · rw [if_pos hnl] at hrun
    exact .space (by simp [isSpace, hnl]) (newline_cases hrun).1 (.inr (beq_iff_eq.1 hnl))
  rw [if_neg hnl] at hrun
  have hspace : isSpace (src.byte s.pos) = false := by
    rw [isSpace, Bool.or_eq_false_iff]
    exact ⟨by simpa using hblank, by simpa using hnl⟩
  by_cases hline : (src.byte s.pos == ch '/' && src.byte (s.pos + 1) == ch '/') = true
  · rw [if_pos hline, Option.some.injEq] at hrun
    rw [Bool.and_eq_true, beq_iff_eq, beq_iff_eq] at hline
    unfold Source.lineComment at hrun
    by_cases hdoc : (src.byte (s.pos + 2) == ch '/' && src.byte (s.pos + 3) != ch '/') = true
    · rw [if_pos hdoc] at hrun
      have hopens : OpensDoc src s.pos := ⟨hline.1, hline.2, hdoc⟩
      rw [← hrun]
      exact .token .docComment _ ⟨hspace, .inr (.inl hopens)⟩ rfl (fun _ => rfl)
        (fun hu => absurd hu hopens.not_unfinished) fun hno => absurd hopens hno.not_doc
    · rw [if_neg hdoc] at hrun
      rw [← hrun]
      exact .comment hspace (.line hline.1 hline.2 fun hopens => hdoc hopens.2.2) rfl
  rw [if_neg hline] at hrun
  by_cases hblock : (src.byte s.pos == ch '/' && src.byte (s.pos + 1) == ch '*') = true
  · rw [if_pos hblock] at hrun
    rw [Bool.and_eq_true, beq_iff_eq, beq_iff_eq] at hblock
    unfold Source.openComment at hrun
    obtain ⟨⟨stop, depth⟩, hopen, hrun⟩ := Option.bind_eq_some_iff.1 hrun
    dsimp only at hrun
    by_cases hdepth : depth > 0
    · rw [if_pos hdepth] at hrun
      have hunfinished : Unfinished src s.pos := ⟨hblock.1, hblock.2, stop, depth, hopen, hdepth⟩
      rw [← Option.some.inj hrun]
      exact .token .error _ ⟨hspace, .inr (.inr hunfinished)⟩ rfl
        (fun hdoc => absurd hunfinished hdoc.not_unfinished) (fun _ => rfl)
        fun hno => absurd hunfinished hno.not_unfinished
    · rw [if_neg hdepth] at hrun
      obtain rfl : depth = 0 := by omega
      rw [← Option.some.inj hrun]
      exact .comment hspace (.block hblock.1 hblock.2 hopen) rfl
  · rw [if_neg hblock] at hrun
    have hno := noComment_of_not hline hblock
    obtain ⟨v, hv, hlexes⟩ := lexToken_lexes (Source.atEnd_eq_false.1 hin) hno
    obtain ⟨kind, hout⟩ := hlexes.token
    obtain rfl : v = s' := Option.some.inj (hv.symm.trans hrun)
    exact .token kind _ ⟨hspace, .inl hno⟩ hout (fun hdoc => absurd hdoc hno.not_doc)
      (fun hu => absurd hu hno.not_unfinished) fun _ => hv

theorem round_total (hin : src.atEnd s.pos = false) : ∃ s', src.round s = some s' ∧ s.pos < s'.pos := by
  unfold Source.round
  dsimp only
  split
  · exact ⟨_, rfl, Nat.lt_succ_self _⟩
  split
  · next hnl =>
    obtain ⟨v, hv, hstep⟩ := newline_step (beq_iff_eq.1 hnl)
    exact ⟨v, hv, hstep.lt⟩
  split
  · next hline =>
    rw [Bool.and_eq_true, beq_iff_eq, beq_iff_eq] at hline
    exact ⟨_, rfl, (lineComment_step hline.1 hline.2).lt⟩
  next hline =>
  split
  · next hblock =>
    rw [Bool.and_eq_true, beq_iff_eq, beq_iff_eq] at hblock
    obtain ⟨v, hv, hstep⟩ := openComment_step hblock.1 hblock.2
    exact ⟨v, hv, hstep.lt⟩
  · next hblock =>
    have hno := noComment_of_not hline hblock
    obtain ⟨v, hv, hlexes⟩ := lexToken_lexes (Source.atEnd_eq_false.1 hin) hno
    exact ⟨v, hv, hlexes.lt⟩

/-! ## The next token -/

/-- The kind of the first token from here on that is not made of a newline. -/
inductive NextToken (src : Source) : LexState → TokenKind → Prop where
  | finish {s : LexState} : src.atEnd s.pos = true → NextToken src s .eof
  | passes {s s' : LexState} {kind : TokenKind} : src.atEnd s.pos = false →
      src.round s = some s' → (s'.out = s.out ∨ src.byte s.pos = ch '\n') →
      NextToken src s' kind → NextToken src s kind
  | token {s s' : LexState} {kind : TokenKind} {span : Diag.Span} : src.atEnd s.pos = false →
      src.round s = some s' → src.byte s.pos ≠ ch '\n' → s'.out = s.out ++ [⟨kind, span⟩] →
      NextToken src s kind

/-- There always is one, the end at least. -/
theorem nextToken_total (src : Source) : ∀ (n : Nat) (s : LexState), src.size - s.pos ≤ n →
    ∃ kind, NextToken src s kind := by
  intro n
  induction n with
  | zero =>
    intro s hn
    exact ⟨.eof, .finish (Source.atEnd_eq_true.2 (by omega))⟩
  | succ n ih =>
    intro s hn
    cases hin : src.atEnd s.pos with
    | true => exact ⟨.eof, .finish hin⟩
    | false =>
      have hlt := Source.atEnd_eq_false.1 hin
      obtain ⟨u, hu, hpos⟩ := round_total hin
      obtain ⟨kind, hkind⟩ := ih u (by omega)
      cases round_cases hin hu with
      | space _ _ hout => exact ⟨kind, .passes hin hu hout hkind⟩
      | comment _ _ hout => exact ⟨kind, .passes hin hu (.inl hout) hkind⟩
      | token k span hat hout _ _ _ =>
        refine ⟨k, .token hin hu (fun hnl => ?_) hout⟩
        rw [AtToken, hnl] at hat
        exact absurd hat.1 (by decide)

/-- What the kind of a token says about the bytes where it starts. -/
inductive KindAt (src : Source) (i : Nat) : TokenKind → Prop where
  | finish : src.size ≤ i → KindAt src i .eof
  | doc : OpensDoc src i → KindAt src i .docComment
  | unfinished : Unfinished src i → KindAt src i .error
  | code {s s' : LexState} {kind : TokenKind} {span : Diag.Span} : s.pos = i → i < src.size →
      NoComment src i → isSpace (src.byte i) = false → src.lexToken s = some s' →
      s'.out = s.out ++ [⟨kind, span⟩] → KindAt src i kind

theorem out_ne {tokens : List Token} {t : Token} : tokens ≠ tokens ++ [t] := by
  intro h
  have := congrArg List.length h
  simp at this

theorem nextToken_starts {kind : TokenKind} (h : NextToken src s kind) :
    ∃ i, Starts src s.pos i ∧ KindAt src i kind := by
  induction h with
  | @finish s hend =>
    have hle := Source.atEnd_eq_true.1 hend
    have hbyte := src.byte_of_le hle
    refine ⟨s.pos, .here ⟨by rw [hbyte]; decide, .inl ?_⟩, .finish hle⟩
    rintro ⟨h1, -⟩
    rw [hbyte] at h1
    exact absurd h1 (by decide)
  | @passes s u kind hin hrun hout _ ih =>
    obtain ⟨i, hstarts, hkind⟩ := ih
    cases round_cases hin hrun with
    | space hspace hpos _ => exact ⟨i, .space hspace (hpos ▸ hstarts), hkind⟩
    | comment _ hcomment _ => exact ⟨i, .comment hcomment hstarts, hkind⟩
    | token k span hat hout' _ _ _ =>
      obtain hout | hnl := hout
      · exact absurd (hout.symm.trans hout') out_ne
      · rw [AtToken, hnl] at hat
        exact absurd hat.1 (by decide)
  | @token s u kind span hin hrun hnl hout =>
    cases round_cases hin hrun with
    | space _ _ hout' =>
      obtain hout' | hnl' := hout'
      · exact absurd (hout'.symm.trans hout) out_ne
      · exact absurd hnl' hnl
    | comment _ _ hout' => exact absurd (hout'.symm.trans hout) out_ne
    | token k span' hat hout' hdoc hunfinished hcode =>
      obtain rfl := kind_unique hout hout'
      refine ⟨s.pos, .here hat, ?_⟩
      obtain ⟨hspace, hno | hopens | hopens⟩ := hat
      · exact .code rfl (Source.atEnd_eq_false.1 hin) hno hspace (hcode hno) hout
      · rw [hdoc hopens]
        exact .doc hopens
      · rw [hunfinished hopens]
        exact .unfinished hopens

/-! ## The look ahead -/

/-- How `peek_next_kind` reads a byte that starts no word. -/
def lookByte (c : UInt8) : TokenKind :=
  if c == ch ',' then .comma
  else if c == ch ')' then .rParen
  else if c == ch ']' then .rBracket
  else if c == ch '\x7d' then .rBrace
  else if c == ch '.' then .dot
  else .ident

/-- How it reads the bytes where it stops. -/
def lookKind (src : Source) (i : Nat) : TokenKind :=
  if src.atEnd i then .eof
  else if isAlpha (src.byte i) || src.byte i == ch '_' then
    if src.slice i (src.skipWhile isAlnumOrUnderscore (i + 1)) == bytesOf "else" then .else
    else .ident
  else lookByte (src.byte i)

theorem peekNextKind_eq (pos : Nat) :
    src.peekNextKind pos = (src.skipAhead (src.size + 1) pos).map (lookKind src) := by
  unfold Source.peekNextKind
  cases src.skipAhead (src.size + 1) pos with
  | none => rfl
  | some i =>
    rw [Option.map_some, lookKind]
    show (if src.atEnd i = true then some TokenKind.eof else _) = _
    split
    · rfl
    dsimp only
    split
    · rfl
    · rfl

theorem skipAhead_space {fuel pos : Nat} (h : isSpace (src.byte pos) = true) :
    src.skipAhead (fuel + 1) pos = src.skipAhead (fuel + 1) (pos + 1) := by
  have hlt : pos < src.size := Source.lt_of_byte_ne (plain_ne_zero (plain_of_space h))
  have hskip : src.skipWhile (fun c => isBlank c || c == ch '\n') pos =
      src.skipWhile (fun c => isBlank c || c == ch '\n') (pos + 1) :=
    Source.skipWhile_of_pos hlt h
  rw [Source.skipAhead, Source.skipAhead, hskip]

/-- Where no space stands, the first loop does nothing. -/
theorem skipAhead_stays {fuel pos : Nat} (h : isSpace (src.byte pos) = false) :
    src.skipAhead (fuel + 1) pos =
      if src.byte pos == ch '/' && src.byte (pos + 1) == ch '/' then
        src.skipAhead fuel (src.skipWhile (· != ch '\n') (pos + 2))
      else if src.byte pos == ch '/' && src.byte (pos + 1) == ch '*' then
        (src.blockComment (src.size + 1) (pos + 2) 1).bind fun r => src.skipAhead fuel r.1
      else some pos := by
  have hskip : src.skipWhile (fun c => isBlank c || c == ch '\n') pos = pos :=
    Source.skipWhile_of_not fun _ => h
  rw [Source.skipAhead, hskip]
  rfl

theorem skipAhead_line {fuel pos : Nat} (h1 : src.byte pos = ch '/')
    (h2 : src.byte (pos + 1) = ch '/') : src.skipAhead (fuel + 1) pos =
      src.skipAhead fuel (src.skipWhile (· != ch '\n') pos) := by
  have hslash : ∀ i, src.byte i = ch '/' →
      src.skipWhile (· != ch '\n') i = src.skipWhile (· != ch '\n') (i + 1) := by
    intro i hi
    refine Source.skipWhile_of_pos (Source.lt_of_byte_ne ?_) ?_
    · rw [hi]
      decide
    · rw [hi]
      decide
  rw [skipAhead_stays (not_space h1), if_pos (by simp [h1, h2]), hslash pos h1,
    hslash (pos + 1) h2]

theorem skipAhead_block {fuel pos stop depth : Nat} (h1 : src.byte pos = ch '/')
    (h2 : src.byte (pos + 1) = ch '*')
    (h : src.blockComment (src.size + 1) (pos + 2) 1 = some (stop, depth)) :
    src.skipAhead (fuel + 1) pos = src.skipAhead fuel stop := by
  have hno : ¬ (src.byte pos == ch '/' && src.byte (pos + 1) == ch '/') = true := by
    rw [h1, h2]
    decide
  rw [skipAhead_stays (not_space h1), if_neg hno, if_pos (by simp [h1, h2]), h, Option.bind_some]

/-- It stops where an identifier, a number, a symbol or nothing starts. -/
theorem skipAhead_here {fuel pos : Nat} (h : isSpace (src.byte pos) = false)
    (hno : NoComment src pos) : src.skipAhead (fuel + 1) pos = some pos := by
  rw [skipAhead_stays h, if_neg, if_neg]
  · intro hc
    rw [Bool.and_eq_true, beq_iff_eq, beq_iff_eq] at hc
    exact hno ⟨hc.1, .inr hc.2⟩
  · intro hc
    rw [Bool.and_eq_true, beq_iff_eq, beq_iff_eq] at hc
    exact hno ⟨hc.1, .inl hc.2⟩

theorem atToken_end {pos : Nat} (h : src.size ≤ pos) :
    isSpace (src.byte pos) = false ∧ NoComment src pos := by
  rw [NoComment, src.byte_of_le h]
  exact ⟨by decide, fun hc => absurd hc.1 (by decide)⟩

/-- The look ahead and the next token start at the same byte, or the look ahead runs through a
comment that is a token. -/
theorem skipAhead_starts {pos i : Nat} (h : Starts src pos i) : ∀ {fuel r : Nat},
    src.skipAhead fuel pos = some r →
      (NoComment src i → r = i) ∧ (Unfinished src i → src.size ≤ r) := by
  induction h with
  | @here pos hat =>
    intro fuel r hrun
    cases fuel with
    | zero => cases hrun
    | succ fuel =>
      refine ⟨fun hno => ?_, ?_⟩
      · rw [skipAhead_here hat.1 hno, Option.some.injEq] at hrun
        exact hrun.symm
      · rintro ⟨h1, h2, stop, depth, hblock, hdepth⟩
        have hlt : pos + 1 < src.size := Source.lt_of_byte_ne (by rw [h2]; decide)
        obtain ⟨stop', left, hrun', -, -, hres⟩ :=
          @blockComment_spec src (src.size + 1) (pos + 2) 0 hlt (by omega)
        rw [hblock, Option.some.injEq, Prod.mk.injEq] at hrun'
        have hstop : stop = src.size := by
          obtain ⟨hleft, -⟩ | ⟨-, hend, -⟩ := hres
          · omega
          · omega
        rw [skipAhead_block h1 h2 hblock] at hrun
        cases fuel with
        | zero => cases hrun
        | succ fuel =>
          obtain ⟨hspace, hno⟩ := @atToken_end src stop (by omega)
          rw [skipAhead_here hspace hno, Option.some.injEq] at hrun
          omega
  | @space pos i hspace _ ih =>
    intro fuel r hrun
    cases fuel with
    | zero => cases hrun
    | succ fuel =>
      rw [skipAhead_space hspace] at hrun
      exact ih hrun
  | @comment pos stop i hcomment _ ih =>
    intro fuel r hrun
    cases fuel with
    | zero => cases hrun
    | succ fuel =>
      cases hcomment with
      | line h1 h2 _ =>
        rw [skipAhead_line h1 h2] at hrun
        exact ih hrun
      | block h1 h2 hblock =>
        rw [skipAhead_block h1 h2 hblock] at hrun
        exact ih hrun

theorem looksOn_code {pos i : Nat} (hpos : pos ≤ src.size) (h : Starts src pos i)
    (hno : NoComment src i) : LooksOn src pos ↔ suppressSemi (lookKind src i) = true := by
  obtain ⟨r, hr⟩ := @skipAhead_total src (src.size + 1) pos hpos (by omega)
  obtain rfl := (skipAhead_starts h hr).1 hno
  rw [LooksOn, peekNextKind_eq, hr]
  simp

theorem looksOn_unfinished {pos i : Nat} (hpos : pos ≤ src.size) (h : Starts src pos i)
    (hu : Unfinished src i) : LooksOn src pos := by
  obtain ⟨r, hr⟩ := @skipAhead_total src (src.size + 1) pos hpos (by omega)
  have hle := (skipAhead_starts h hr).2 hu
  refine ⟨.eof, ?_, rfl⟩
  rw [peekNextKind_eq, hr, Option.map_some, lookKind, if_pos (Source.atEnd_eq_true.2 hle)]

/-! ## What the next token is -/

/-- `..`, `..=` or `..<`. -/
def OpensRange (src : Source) (pos : Nat) : Prop :=
  src.byte pos = ch '.' ∧ src.byte (pos + 1) = ch '.'

theorem lookupKeyword_else (word : List UInt8) :
    suppressSemi (lookupKeyword word) = true ↔ word = bytesOf "else" := by
  have hother : ∀ keyword ∈ kKeywords, suppressSemi keyword.2 = true → keyword.1 = "else" := by
    decide
  constructor
  · intro h
    unfold lookupKeyword at h
    cases hfind : kKeywords.find? fun keyword => bytesOf keyword.1 == word with
    | none =>
      rw [hfind] at h
      cases h
    | some keyword =>
      rw [hfind] at h
      have hword := List.find?_some hfind
      rw [hother keyword (List.mem_of_find?_eq_some hfind) h, beq_iff_eq] at hword
      exact hword.symm
  · intro h
    rw [h]
    decide

/-- A token is quiet if it does not continue a construct. -/
def Quiet (s s' : LexState) : Prop :=
  ∃ kind span, s'.out = s.out ++ [⟨kind, span⟩] ∧ suppressSemi kind = false

theorem quiet_error (start length code : Nat) (message : String) (pos : Nat) :
    Quiet s (src.emitError start length code message { s with pos }) := ⟨.error, _, rfl, rfl⟩

theorem Quiet.ite {p : Bool} {a b : LexState} (ha : Quiet s a) (hb : Quiet s b) :
    Quiet s (if p then a else b) := by
  cases p with
  | true => exact ha
  | false => exact hb

theorem lexSuffix_quiet {start pos : Nat} {isFloat : Bool} :
    Quiet s (src.lexSuffix start pos isFloat s) := by
  refine ⟨if isFloat then .float else .integer, _, rfl, ?_⟩
  cases isFloat <;> rfl

theorem lexNumber_quiet : Quiet s (src.lexNumber s) := by
  have herror : ∀ start stop, Quiet s (src.invalidNumber start stop s) :=
    fun start stop => quiet_error _ _ _ _ _
  unfold Source.lexNumber
  dsimp only
  split
  · unfold Source.lexPrefixed
    dsimp only
    split
    · exact herror _ _
    split
    · exact herror _ _
    split
    · exact herror _ _
    · exact lexSuffix_quiet
  · exact (herror _ _).ite lexSuffix_quiet

theorem lexString_quiet (hrun : src.lexString s = some s') : Quiet s s' := by
  unfold Source.lexString at hrun
  obtain ⟨⟨stop, f⟩, -, hrun⟩ := Option.bind_eq_some_iff.1 hrun
  rw [← Option.some.inj hrun]
  split
  · exact quiet_error _ _ _ _ _
  split
  · exact quiet_error _ _ _ _ _
  · exact ⟨.string, _, rfl, rfl⟩

theorem lexChar_quiet (hrun : src.lexChar s = some s') : Quiet s s' := by
  unfold Source.lexChar at hrun
  obtain ⟨⟨stop, f⟩, -, hrun⟩ := Option.bind_eq_some_iff.1 hrun
  rw [← Option.some.inj hrun]
  split
  · exact quiet_error _ _ _ _ _
  split
  · exact quiet_error _ _ _ _ _
  split
  · exact quiet_error _ _ _ _ _
  · exact ⟨.char, _, rfl, rfl⟩

/-- A row of the symbol table that does not continue a construct. -/
def SymbolQuiet (r : Option (TokenKind × Nat)) : Prop :=
  ∀ kind width, r = some (kind, width) → suppressSemi kind = false

theorem SymbolQuiet.ite {p : Bool} {a b : Option (TokenKind × Nat)}
    (ha : p = true → SymbolQuiet a) (hb : SymbolQuiet b) : SymbolQuiet (if p then a else b) := by
  cases p with
  | true => exact ha rfl
  | false => exact hb

theorem symbolKind_quiet {c : UInt8} (n m : UInt8) (hc : suppressSemi (lookByte c) = false) :
    SymbolQuiet (symbolKind c n m) := by
  unfold symbolKind
  repeat' refine SymbolQuiet.ite (fun h => ?_) ?_
  all_goals
    rintro kind width hk
    cases hk
  all_goals
    simp only [Bool.and_eq_true, beq_iff_eq] at *
    first
      | rfl
      | subst_vars; exact absurd hc (by decide)

/-- Where the look ahead goes on, one symbol follows, or a range. -/
theorem lookByte_symbol {c : UInt8} (n m : UInt8) (hc : suppressSemi (lookByte c) = true) :
    ∃ kind width, symbolKind c n m = some (kind, width) ∧
      (suppressSemi kind = true ↔ ¬ (c = ch '.' ∧ n = ch '.')) := by
  have hcases := all_bytes (P := fun c => !suppressSemi (lookByte c) ||
    (c == ch ',' || c == ch ')' || c == ch ']' || c == ch '\x7d' || c == ch '.'))
    (by decide +kernel) c
  rw [hc] at hcases
  simp only [Bool.not_true, Bool.false_or, Bool.or_eq_true, beq_iff_eq] at hcases
  obtain (((rfl | rfl) | rfl) | rfl) | rfl := hcases
  · exact ⟨.comma, 1, rfl, fun _ h => absurd h.1 (by decide), fun _ => rfl⟩
  · exact ⟨.rParen, 1, rfl, fun _ h => absurd h.1 (by decide), fun _ => rfl⟩
  · exact ⟨.rBracket, 1, rfl, fun _ h => absurd h.1 (by decide), fun _ => rfl⟩
  · exact ⟨.rBrace, 1, rfl, fun _ h => absurd h.1 (by decide), fun _ => rfl⟩
  · have hrow : symbolKind (ch '.') n m =
        if n == ch '.' && m == ch '=' then some (.dotDotEq, 3)
        else if n == ch '.' && m == ch '<' then some (.dotDotLess, 3)
        else if n == ch '.' then some (.dotDot, 2)
        else some (.dot, 1) := rfl
    rw [hrow]
    by_cases hn : n = ch '.'
    · have hno : ∀ kind, suppressSemi kind = false →
          (suppressSemi kind = true ↔ ¬ (ch '.' = ch '.' ∧ n = ch '.')) := by
        intro kind hkind
        rw [hkind]
        exact ⟨fun h => absurd h (by decide), fun h => absurd ⟨rfl, hn⟩ h⟩
      split
      · exact ⟨_, _, rfl, hno _ rfl⟩
      split
      · exact ⟨_, _, rfl, hno _ rfl⟩
      split
      · exact ⟨_, _, rfl, hno _ rfl⟩
      · next h => exact absurd (beq_iff_eq.2 hn) h
    · rw [if_neg (by simp [hn]), if_neg (by simp [hn]), if_neg (by simp [hn])]
      exact ⟨.dot, 1, rfl, fun _ h => hn h.2, fun _ => rfl⟩

theorem Quiet.kind {kind : TokenKind} {span : Diag.Span} (h : Quiet s s')
    (hout : s'.out = s.out ++ [⟨kind, span⟩]) : suppressSemi kind = false := by
  obtain ⟨k, span', hout', hk⟩ := h
  rw [kind_unique hout hout']
  exact hk

/-- Bytes that start no word and no symbol are nothing that the look ahead goes on with. -/
theorem lookByte_digit {c : UInt8} (h : isDigit c = true) :
    suppressSemi (lookByte c) = false := by
  have := all_bytes (P := fun c => !isDigit c || !suppressSemi (lookByte c)) (by decide +kernel) c
  simpa [h] using this

section lexToken
variable {kind : TokenKind} {span : Diag.Span}

/-- What the look ahead says of the token that `lexToken` makes. They differ only on ranges. -/
def Foreseen (src : Source) (i : Nat) (kind : TokenKind) : Prop :=
  suppressSemi kind = true ↔ suppressSemi (lookKind src i) = true ∧ ¬ OpensRange src i

theorem foreseen_quiet {i : Nat} (hk : suppressSemi kind = false)
    (hlook : suppressSemi (lookKind src i) = false) : Foreseen src i kind := by
  rw [Foreseen, hk, hlook]
  exact ⟨fun h => absurd h (by decide), fun h => absurd h.1 (by decide)⟩

theorem lexIdentifier_foreseen (hin : src.atEnd s.pos = false)
    (hword : (isAlpha (src.byte s.pos) || src.byte s.pos == ch '_') = true)
    (hout : (src.lexIdentifier s).out = s.out ++ [⟨kind, span⟩]) : Foreseen src s.pos kind := by
  have halnum : isAlnumOrUnderscore (src.byte s.pos) = true := by
    rw [Bool.or_eq_true] at hword
    obtain h | h := hword
    · simp [isAlnumOrUnderscore, h]
    · simp [isAlnumOrUnderscore, h]
  obtain ⟨word, hw⟩ : ∃ word, word =
    src.slice s.pos (src.skipWhile isAlnumOrUnderscore s.pos) := ⟨_, rfl⟩
  have hkind : kind = if word == bytesOf "_" then .underscore else lookupKeyword word :=
    kind_unique hout (by rw [hw]; rfl)
  have hlook : lookKind src s.pos = if word == bytesOf "else" then .else else .ident := by
    rw [lookKind, if_neg (by simp [hin]), if_pos hword,
      ← Source.skipWhile_of_pos (Source.atEnd_eq_false.1 hin) halnum, ← hw]
  have hrange : ¬ OpensRange src s.pos := by
    rintro ⟨h, -⟩
    rw [h] at halnum
    exact absurd halnum (by decide)
  rw [Foreseen, and_iff_left hrange, hkind, hlook]
  by_cases helse : word = bytesOf "else"
  · rw [helse]
    decide
  · have hkeyword : suppressSemi (lookupKeyword word) = false := by
      rw [← Bool.not_eq_true, lookupKeyword_else]
      exact helse
    rw [beq_eq_false_iff_ne.2 helse, if_neg Bool.false_ne_true]
    split
    · decide
    · rw [hkeyword]
      decide

theorem lexSymbol_foreseen (hlook : lookKind src s.pos = lookByte (src.byte s.pos))
    (hout : (src.lexSymbol s).out = s.out ++ [⟨kind, span⟩]) : Foreseen src s.pos kind := by
  have hmade : ∀ {k : TokenKind} {sp : Diag.Span}, (src.lexSymbol s).out = s.out ++ [⟨k, sp⟩] →
      k = kind := fun hk => kind_unique hk hout
  cases hc : suppressSemi (lookByte (src.byte s.pos)) with
  | false =>
    refine foreseen_quiet ?_ (by rw [hlook, hc])
    unfold Source.lexSymbol at hmade
    cases hrow : symbolKind (src.byte s.pos) (src.byte (s.pos + 1)) (src.byte (s.pos + 2)) with
    | none =>
      rw [hrow] at hmade
      rw [← @hmade .error _ rfl]
      rfl
    | some row =>
      rw [hrow] at hmade
      rw [← @hmade row.1 _ rfl]
      exact symbolKind_quiet _ _ hc row.1 row.2 hrow
  | true =>
    obtain ⟨k, width, hrow, hk⟩ := lookByte_symbol (src.byte (s.pos + 1)) (src.byte (s.pos + 2)) hc
    unfold Source.lexSymbol at hmade
    rw [hrow] at hmade
    rw [Foreseen, hlook, and_iff_right hc, ← @hmade k _ rfl, hk, OpensRange]

/-- **The look ahead foresees every token but a range.** -/
theorem lexToken_foreseen (hin : src.atEnd s.pos = false) (hrun : src.lexToken s = some s')
    (hout : s'.out = s.out ++ [⟨kind, span⟩]) : Foreseen src s.pos kind := by
  unfold Source.lexToken at hrun
  dsimp only at hrun
  by_cases hword : (isAlpha (src.byte s.pos) || src.byte s.pos == ch '_') = true
  · rw [if_pos hword] at hrun
    split at hrun
    · next hzero =>
      rw [beq_iff_eq.1 hzero] at hword
      exact absurd hword (by decide)
    · rw [← Option.some.inj hrun] at hout
      exact lexIdentifier_foreseen hin hword hout
  have hlook : lookKind src s.pos = lookByte (src.byte s.pos) := by
    rw [lookKind, if_neg (by simp [hin]), if_neg hword]
  rw [if_neg hword] at hrun
  by_cases hzero : (src.byte s.pos == 0) = true
  · rw [if_pos hzero, Option.some.injEq] at hrun
    have hq : Quiet s s' := hrun ▸ ⟨.error, _, rfl, rfl⟩
    refine foreseen_quiet (hq.kind hout) ?_
    rw [hlook, beq_iff_eq.1 hzero]
    decide
  rw [if_neg hzero] at hrun
  by_cases hdigit : isDigit (src.byte s.pos) = true
  · rw [if_pos hdigit, Option.some.injEq] at hrun
    refine foreseen_quiet (Quiet.kind (hrun ▸ lexNumber_quiet) hout) ?_
    rw [hlook]
    exact lookByte_digit hdigit
  rw [if_neg hdigit] at hrun
  by_cases hstring : (src.byte s.pos == ch '"') = true
  · rw [if_pos hstring] at hrun
    refine foreseen_quiet ((lexString_quiet hrun).kind hout) ?_
    rw [hlook, beq_iff_eq.1 hstring]
    decide
  rw [if_neg hstring] at hrun
  by_cases hchar : (src.byte s.pos == ch '\'') = true
  · rw [if_pos hchar] at hrun
    refine foreseen_quiet ((lexChar_quiet hrun).kind hout) ?_
    rw [hlook, beq_iff_eq.1 hchar]
    decide
  rw [if_neg hchar] at hrun
  rw [← Option.some.inj hrun] at hout
  exact lexSymbol_foreseen hlook hout

end lexToken

/-! ## One next token -/

theorem Comments.unique {pos a b : Nat} (h : Comments src pos a) (k : Comments src pos b) :
    a = b := by
  cases h with
  | line h1 h2 _ =>
    cases k with
    | line => rfl
    | block _ k2 _ => exact absurd (h2.symm.trans k2) (by decide)
  | block h1 h2 h3 =>
    cases k with
    | line _ k2 _ => exact absurd (h2.symm.trans k2) (by decide)
    | block _ _ k3 =>
      rw [h3, Option.some.injEq, Prod.mk.injEq] at k3
      exact k3.1

theorem Comments.not_atToken {pos stop : Nat} (h : Comments src pos stop) :
    ¬ AtToken src pos := by
  rintro ⟨-, hat⟩
  cases h with
  | line h1 h2 hdoc =>
    obtain hno | hopens | hu := hat
    · exact hno ⟨h1, .inl h2⟩
    · exact hdoc hopens
    · exact absurd (h2.symm.trans hu.2.1) (by decide)
  | block h1 h2 h3 =>
    obtain hno | hopens | ⟨-, -, _, depth, h4, hdepth⟩ := hat
    · exact hno ⟨h1, .inr h2⟩
    · exact absurd (h2.symm.trans hopens.2.1) (by decide)
    · rw [h3, Option.some.injEq, Prod.mk.injEq] at h4
      omega

theorem Comments.not_space {pos stop : Nat} (h : Comments src pos stop) :
    isSpace (src.byte pos) = false := by
  cases h with
  | line h1 _ _ => exact Lexer.not_space h1
  | block h1 _ _ => exact Lexer.not_space h1

theorem Starts.unique {pos i j : Nat} (h : Starts src pos i) (k : Starts src pos j) : i = j := by
  induction h with
  | here hat =>
    cases k with
    | here => rfl
    | space hspace _ =>
      rw [hat.1] at hspace
      cases hspace
    | comment hcomment _ => exact absurd hat hcomment.not_atToken
  | space hspace _ ih =>
    cases k with
    | here hat =>
      rw [hat.1] at hspace
      cases hspace
    | space _ k => exact ih k
    | comment hcomment _ =>
      rw [hcomment.not_space] at hspace
      cases hspace
  | comment hcomment _ ih =>
    cases k with
    | here hat => exact absurd hat hcomment.not_atToken
    | space hspace _ =>
      rw [hcomment.not_space] at hspace
      cases hspace
    | comment hcomment' k =>
      obtain rfl := hcomment.unique hcomment'
      exact ih k

/-- The next token continues the construct where the look ahead goes on, unless it is led astray. -/
theorem nextToken_looksOn {pos i : Nat} {next : TokenKind} (hpos : pos ≤ src.size)
    (hstarts : Starts src pos i) (hkind : KindAt src i next) :
    (suppressSemi next = true ↔ LooksOn src pos) ↔
      ¬ OpensRange src i ∧ ¬ Unfinished src i ∧ (OpensDoc src i → ¬ LooksOn src pos) := by
  have hslash {c : UInt8} (hc : src.byte i = c) (hne : c ≠ ch '.') : ¬ OpensRange src i :=
    fun hrange => hne (hc.symm.trans hrange.1)
  cases hkind with
  | finish hend =>
    obtain ⟨-, hno⟩ := atToken_end hend
    have hon : LooksOn src pos := by
      rw [looksOn_code hpos hstarts hno, lookKind, if_pos (Source.atEnd_eq_true.2 hend)]
      rfl
    exact ⟨fun _ => ⟨hslash (src.byte_of_le hend) (by decide), hno.not_unfinished,
      fun hdoc => absurd hdoc hno.not_doc⟩, fun _ => ⟨fun _ => hon, fun _ => rfl⟩⟩
  | doc hdoc =>
    constructor
    · intro h
      exact ⟨hslash hdoc.1 (by decide), hdoc.not_unfinished, fun _ hon => absurd (h.2 hon) (by decide)⟩
    · rintro ⟨-, -, h⟩
      exact ⟨fun hs => absurd hs (by decide), fun hon => absurd hon (h hdoc)⟩
  | unfinished hu =>
    have hon := looksOn_unfinished hpos hstarts hu
    constructor
    · intro h
      exact absurd (h.2 hon) (by decide)
    · rintro ⟨-, h, -⟩
      exact absurd hu h
  | @code s s' _ span hs hin hno hspace hrun hout =>
    subst hs
    have hend : src.atEnd s.pos = false := Source.atEnd_eq_false.2 hin
    have hforeseen := lexToken_foreseen hend hrun hout
    rw [Foreseen] at hforeseen
    rw [hforeseen, looksOn_code hpos hstarts hno]
    constructor
    · intro h
      refine ⟨fun hrange => ?_, hno.not_unfinished, fun hdoc => absurd hdoc hno.not_doc⟩
      have hlook : suppressSemi (lookKind src s.pos) = true := by
        rw [lookKind, if_neg (by simp [hend]), hrange.1]
        rfl
      exact (h.2 hlook).2 hrange
    · rintro ⟨hrange, -, -⟩
      exact and_iff_left hrange

end Alcy.Lexer
