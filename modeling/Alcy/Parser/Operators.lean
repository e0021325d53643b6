import Alcy.Parser.Scanning

/-! # Reading operators

The parse functions of the levels of precedence, from the ranges down to the prefix operators. Each
takes the texts of its level and above it before a token that it does not take for its own operator. -/
namespace Alcy.Parser
open Alcy.Ast Alcy.Diag
open Alcy.Lexer (Token TokenKind)
open PM

/-! ## How an expression begins -/

def prefixOp : TokenKind → Bool
  | .minus | .bang | .tilde | .amp => true
  | _ => false

def startsPrimary (k : TokenKind) : Bool :=
  (Input.literalKind k).isSome || isPathSegment k ||
    k == .lParen || k == .lBrace || k == .if || k == .match || k == .loop || k == .while ||
    k == .ret || k == .break || k == .continue

/-- The kinds that an expression of a level can begin with. -/
def startsAt (level : Nat) (k : TokenKind) : Bool :=
  startsPrimary k || (prefixOp k && decide (level ≤ 12)) || (Input.isRangeOp k && level == 0)

theorem startsAt_mono {level level' : Nat} (hle : level' ≤ level) {k : TokenKind}
    (h : startsAt level k = true) : startsAt level' k = true := by
  simp only [startsAt, Bool.or_eq_true, Bool.and_eq_true, decide_eq_true_eq, beq_iff_eq] at h ⊢
  rcases h with (h | h) | h
  · exact .inl (.inl h)
  · exact .inl (.inr ⟨h.1, Nat.le_trans hle h.2⟩)
  · exact .inr ⟨h.1, Nat.le_zero.1 (h.2 ▸ hle)⟩

theorem startsAt_primary {k : TokenKind} (h : startsPrimary k = true) (level : Nat) :
    startsAt level k = true := by
  rw [startsAt, h]
  rfl

theorem startsAt_ne {level : Nat} {l : Lexeme} (h : startsAt level l.kind = true) {k : TokenKind}
    (hk : startsAt 0 k = false) : l.kind ≠ k := by
  intro heq
  rw [← heq, startsAt_mono (Nat.zero_le level) h] at hk
  exact Bool.noConfusion hk

theorem startsPrimary_segment (name : String) : startsPrimary (segmentKind name) = true := by
  rw [startsPrimary, isPathSegment_segmentKind]
  simp

theorem startsPrimary_literal (kind : LiteralKind) (spelling : String) :
    startsPrimary (literalToken kind spelling) = true := by
  rw [startsPrimary, literalKind_token]
  simp

theorem opLevel_le_left (op : BinaryOp) : opLevel op ≤ leftLevel op := by
  cases op <;> decide

theorem ExprText.begin (allow : Bool) : ∀ e : ExprText, e.legible allow = true →
    ∃ l ls, e.lexemes = l :: ls ∧ startsAt e.level l.kind = true
  | .literal kind spelling, _ =>
    ⟨_, _, rfl, startsAt_primary (startsPrimary_literal kind spelling) _⟩
  | .path name, _ => ⟨_, _, rfl, startsAt_primary (startsPrimary_segment name.first) _⟩
  | .struct name _ _ _, _ => ⟨_, _, rfl, startsAt_primary (startsPrimary_segment name.first) _⟩
  | .tuple _ _, _ => ⟨_, _, rfl, startsAt_primary rfl _⟩
  | .paren _, _ => ⟨_, _, rfl, startsAt_primary rfl _⟩
  | .unary op _, _ => ⟨_, _, rfl, by cases op <;> rfl⟩
  | .borrow _ _, _ => ⟨_, _, rfl, rfl⟩
  | .binary op lhs rhs, h => by
    simp only [ExprText.legible, Bool.and_eq_true, decide_eq_true_eq] at h
    obtain ⟨l, ls, hl, hstart⟩ := lhs.begin allow h.1.1.1.2
    refine ⟨l, ls ++ symbol (binaryToken op) :: rhs.lexemes, ?_,
      startsAt_mono (Nat.le_trans (opLevel_le_left op) h.1.1.1.1) hstart⟩
    rw [ExprText.lexemes, hl, List.cons_append]
  | .cast inner type, h => by
    simp only [ExprText.legible, Bool.and_eq_true, decide_eq_true_eq] at h
    obtain ⟨l, ls, hl, hstart⟩ := inner.begin allow h.1.1.2
    refine ⟨l, ls ++ symbol .as :: munch type.halves, ?_,
      startsAt_mono (Nat.le_trans (by decide : 11 ≤ 12) h.1.1.1) hstart⟩
    rw [ExprText.lexemes, hl, List.cons_append]
  | .call callee args trailing, h => by
    simp only [ExprText.legible, Bool.and_eq_true, Bool.or_eq_true, decide_eq_true_eq] at h
    by_cases hpath : callee.isPath = true
    · cases callee with
      | path name => exact ⟨_, _, rfl, startsAt_primary (startsPrimary_segment name.first) _⟩
      | _ => exact absurd hpath Bool.noConfusion
    · have hcallee := h.1.resolve_left hpath
      obtain ⟨l, ls, hl, hstart⟩ := callee.begin allow hcallee.1.2
      refine ⟨l, ls ++ symbol .lParen :: (ExprText.listLexemes trailing args ++ [symbol .rParen]),
        ?_, ?_⟩
      · rw [ExprText.lexemes, hl, List.cons_append]
      · rw [ExprText.level, if_neg hpath]
        exact startsAt_mono hcallee.1.1 hstart
  | .methodCall receiver name args trailing, h => by
    simp only [ExprText.legible, Bool.and_eq_true, decide_eq_true_eq] at h
    obtain ⟨l, ls, hl, hstart⟩ := receiver.begin allow h.1.1.2
    refine ⟨l, ls ++ symbol .dot :: identText name :: symbol .lParen ::
      (ExprText.listLexemes trailing args ++ [symbol .rParen]), ?_, startsAt_mono h.1.1.1 hstart⟩
    rw [ExprText.lexemes, hl, List.cons_append]
  | .field receiver name, h => by
    simp only [ExprText.legible, Bool.and_eq_true, decide_eq_true_eq] at h
    obtain ⟨l, ls, hl, hstart⟩ := receiver.begin allow h.1.2
    refine ⟨l, ls ++ [symbol .dot, memberText name], ?_, startsAt_mono h.1.1 hstart⟩
    rw [ExprText.lexemes, hl, List.cons_append]
  | .index receiver place, h => by
    simp only [ExprText.legible, Bool.and_eq_true, decide_eq_true_eq] at h
    obtain ⟨l, ls, hl, hstart⟩ := receiver.begin allow h.1.1.1.2
    refine ⟨l, ls ++ symbol .lBracket :: (place.lexemes ++ [symbol .rBracket]), ?_,
      startsAt_mono h.1.1.1.1 hstart⟩
    rw [ExprText.lexemes, hl, List.cons_append]
  | .question inner, h => by
    simp only [ExprText.legible, Bool.and_eq_true, decide_eq_true_eq] at h
    obtain ⟨l, ls, hl, hstart⟩ := inner.begin allow h.1.2
    refine ⟨l, ls ++ [symbol .question], ?_, startsAt_mono h.1.1 hstart⟩
    rw [ExprText.lexemes, hl, List.cons_append]
  | .ifExpr _ _ _, _ => ⟨_, _, rfl, startsAt_primary rfl _⟩
  | .matchExpr _ _, _ => ⟨_, _, rfl, startsAt_primary rfl _⟩
  | .loop _, _ => ⟨_, _, rfl, startsAt_primary rfl _⟩
  | .whileExpr _ _, _ => ⟨_, _, rfl, startsAt_primary rfl _⟩
  | .block (.mk _), _ => ⟨_, _, rfl, startsAt_primary rfl _⟩
  | .returnExpr _, _ => ⟨_, _, rfl, startsAt_primary rfl _⟩
  | .breakExpr, _ => ⟨_, _, rfl, startsAt_primary rfl _⟩
  | .continueExpr, _ => ⟨_, _, rfl, startsAt_primary rfl _⟩
  | .range none op stop, _ => ⟨_, _, rfl, by cases op <;> rfl⟩
  | .range (some start) op stop, h => by
    simp only [ExprText.legible, ExprText.boundLegible, Bool.and_eq_true, decide_eq_true_eq] at h
    obtain ⟨l, ls, hl, hstart⟩ := start.begin allow h.1.1.1.2
    refine ⟨l, ls ++ symbol op.token :: ExprText.optionLexemes stop, ?_,
      startsAt_mono (Nat.zero_le _) hstart⟩
    rw [ExprText.lexemes, ExprText.optionLexemes, hl, List.cons_append]

theorem freeAt_mono {level level' : Nat} (hle : level ≤ level') {k : TokenKind}
    (h : freeAt level k = true) : freeAt level' k = true := by
  rw [freeAt] at h ⊢
  split at h
  · rfl
  · exact decide_eq_true (Nat.lt_of_lt_of_le (of_decide_eq_true h) hle)

/-- A free kind is not an operator of the level. -/
theorem freeAt_ne {level taken : Nat} {k : TokenKind} (h : freeAt level k = true)
    (hle : level ≤ taken) : takenAt k ≠ some taken := by
  intro heq
  rw [freeAt, heq] at h
  exact absurd (of_decide_eq_true h) (Nat.not_lt_of_le hle)

theorem level_binary {e : ExprText} {n : Nat} (h : e.level = n) (hlow : 1 ≤ n) (hhigh : n ≤ 10) :
    ∃ b lhs rhs, e = .binary b lhs rhs ∧ opLevel b = n := by
  cases e with
  | binary b lhs rhs => exact ⟨b, lhs, rhs, rfl, h⟩
  | call callee args trailing =>
    simp only [ExprText.level] at h
    split at h <;> omega
  | _ =>
    simp only [ExprText.level] at h
    omega

theorem level_cast {e : ExprText} (h : e.level = 11) : ∃ inner type, e = .cast inner type := by
  cases e with
  | cast inner type => exact ⟨inner, type, rfl⟩
  | binary b => exact absurd h (by cases b <;> simp [ExprText.level, opLevel])
  | call callee args trailing =>
    simp only [ExprText.level] at h
    split at h <;> omega
  | _ =>
    simp only [ExprText.level] at h
    omega

/-! ## What a level reads -/

/-- With fewer than `M` lexemes ahead, a parse function of a level takes every legible expression of
that level or above before a kind it may stand before. -/
def LevelReads (inp : Input) (M level : Nat) (p : PM Expr) : Prop :=
  ∀ (m : Mode) (e : ExprText) (k : TokenKind), m.bank = 0 → level ≤ e.level →
    e.legible m.allow = true → e.ends m.allow k = true → freeAt level k = true →
    Takes inp m M p e.lexemes k fun result => result.plain = e.tree

/-- The ways back up into expressions. -/
structure ExprsRead (inp : Input) (M : Nat) (back : ExprRec) : Prop where
  expr : LevelReads inp M 0 back.expr
  pow : LevelReads inp M 10 back.pow
  unary : LevelReads inp M 12 back.unary

variable {inp : Input} {m : Mode} {ls : List Lexeme} {s : PState} {M level : Nat} {back : ExprRec}
  {op : TokenKind → Option BinaryOp} {operand : PM Expr}

theorem LevelReads.after {p : PM Expr} (h : LevelReads inp M level p) (hs : At inp m ls s)
    (hM : ls.length ≤ M) : LevelReads inp ls.length level (p.after s.pos) := by
  intro m' e k hm hlevel hlegible hends hfree ls' s' hs' hlt hk
  exact (h m' e k hm hlevel hlegible hends hfree ls' s' hs' (Nat.lt_of_lt_of_le hlt hM) hk).after
    (hs.pos_lt hs' hlt)

theorem ExprsRead.after (h : ExprsRead inp M back) (hs : At inp m ls s) (hM : ls.length ≤ M) :
    ExprsRead inp ls.length (back.after s.pos) :=
  ⟨h.expr.after hs hM, h.pow.after hs hM, h.unary.after hs hM⟩

theorem LevelReads.fewer {p : PM Expr} {M' : Nat} (h : LevelReads inp M level p) (hM : M' ≤ M) :
    LevelReads inp M' level p :=
  fun m e k hm hlevel hlegible hends hfree => (h m e k hm hlevel hlegible hends hfree).fewer hM

/-! ## Left-associative operators -/

/-- The operators of a level, as the parse function knows them. -/
structure OpTable (op : TokenKind → Option BinaryOp) (level : Nat) : Prop where
  lowest : 1 ≤ level
  highest : level ≤ 9
  takes : ∀ b : BinaryOp, opLevel b = level → op (binaryToken b) = some b
  leaves : ∀ k : TokenKind, takenAt k ≠ some level → op k = none
  left : ∀ b : BinaryOp, opLevel b = level → leftLevel b = level
  right : ∀ b : BinaryOp, opLevel b = level → rightLevel b = level + 1

theorem takenAt_binary (b : BinaryOp) : takenAt (binaryToken b) = some (opLevel b) := by
  cases b <;> rfl

/-- A round of the loop in `parseLeft`. -/
def Input.leftRound (inp : Input) (mark : Nat) (op : TokenKind → Option BinaryOp)
    (operand : PM Expr) (lhs : Expr) : PM (Expr × Bool) := do
  let t ← inp.peek
  match op t.kind with
  | none => return (lhs, false)
  | some op =>
    inp.advance
    let rhs ← operand
    return (.binary (← inp.spanFrom mark) op lhs rhs, true)

theorem Input.parseLeft_eq : inp.parseLeft op operand = PM.here >>= fun mark =>
    operand >>= fun lhs => loopM (inp.leftRound mark op operand) inp.loopFuel lhs := rfl

theorem loopM_round {α : Type} {step : α → PM (α × Bool)} {acc acc' : α} {fuel : Nat}
    {s s' : PState} (h : step acc s = .ok (some (acc', true), s')) (hlt : s.pos < s'.pos) :
    loopM step (fuel + 1) acc s = loopM step fuel acc' s' := by
  simp only [loopM, h, if_neg (Nat.not_le_of_lt hlt)]

/-- An expression of the level is on its way: what is left is the loop with the expression as its
left operand. The induction is on the left spine. -/
theorem parseLeft_reaches (htable : OpTable op level)
    (hoperand : LevelReads inp M (level + 1) operand) (hm : m.bank = 0) :
    ∀ (e : ExprText) {ls : List Lexeme} {s : PState}, level ≤ e.level → e.legible m.allow = true →
      e.ends m.allow (nextKind ls) = true → freeAt (level + 1) (nextKind ls) = true →
      At inp m (e.lexemes ++ ls) s → (e.lexemes ++ ls).length < M →
      ∃ (lhs : Expr) (s' : PState) (fuel : Nat), lhs.plain = e.tree ∧ At inp m ls s' ∧
        ls.length < fuel ∧
        inp.parseLeft op operand s = loopM (inp.leftRound s.pos op operand) fuel lhs s' := by
  intro e
  induction hsize : sizeOf e using Nat.strongRecOn generalizing e with
  | ind n ih =>
    intro ls s hlevel hlegible hends hfree hs hM
    by_cases hhigher : level + 1 ≤ e.level
    · obtain ⟨lhs, s1, hrun, h1⟩ := hoperand m e _ hm hhigher hlegible hends hfree ls s hs hM rfl
      refine ⟨lhs, s1, inp.loopFuel, h1.1, h1.2, h1.2.lt_fuel, ?_⟩
      rw [Input.parseLeft_eq, bind_run, PM.here]
      simp only
      rw [bind_run, hrun]
    · have heq : e.level = level := by omega
      obtain ⟨b, lhs, rhs, rfl, hop⟩ :=
        level_binary heq htable.lowest (Nat.le_trans htable.highest (by decide))
      simp only [ExprText.legible, Bool.and_eq_true, decide_eq_true_eq] at hlegible
      rw [htable.left b hop, htable.right b hop] at hlegible
      rw [ExprText.lexemes, List.append_assoc, List.cons_append] at hs hM
      have hbin : freeAt (level + 1) (binaryToken b) = true := by
        rw [freeAt, takenAt_binary, hop]
        exact decide_eq_true (Nat.lt_succ_self _)
      have hsmaller : sizeOf lhs < n := by
        subst hsize
        simp only [ExprText.binary.sizeOf_spec]
        omega
      obtain ⟨lhs', s1, fuel, h1, hs1, hfuel, hloop⟩ :=
        @ih (sizeOf lhs) hsmaller lhs rfl (symbol (binaryToken b) :: (rhs.lexemes ++ ls)) s
          hlegible.1.1.1.1 hlegible.1.1.1.2 hlegible.1.1.2 hbin hs hM
      obtain ⟨fuel, rfl⟩ := Nat.exists_eq_succ_of_ne_zero (Nat.ne_zero_of_lt hfuel)
      have hround : Gives (inp.leftRound s.pos op operand lhs') s1 fun r s3 =>
          r.2 = true ∧ r.1.plain = (ExprText.binary b lhs rhs).tree ∧ At inp m ls s3 := by
        refine .peek hs1 fun t ht => ?_
        rw [show t.kind = binaryToken b from congrArg Lexeme.kind ht, htable.takes b hop]
        have hne : (symbol (binaryToken b)).kind ≠ .eof := by
          cases b <;> exact TokenKind.noConfusion
        refine .advance hs1 hne fun s2 (hs2 : At inp m (rhs.lexemes ++ ls) s2) => ?_
        have hlt : (rhs.lexemes ++ ls).length < M := by
          simp only [List.length_append, List.length_cons] at hM ⊢
          omega
        refine .bind (hoperand m rhs _ hm hlegible.1.2 hlegible.2 hends hfree ls s2 hs2 hlt rfl)
          fun rhs' s3 h3 => .spanned hs.lt fun span => ⟨rfl, ?_, h3.2⟩
        exact congrArg₂ (Expr.binary default b) h1 h3.1
      obtain ⟨⟨lhs2, more⟩, s3, hrun, hmore, h3, hs3⟩ := hround
      obtain rfl : more = true := hmore
      have hlen : ls.length < (symbol (binaryToken b) :: (rhs.lexemes ++ ls)).length := by
        simp only [List.length_append, List.length_cons]
        omega
      refine ⟨lhs2, s3, fuel, h3, hs3, Nat.lt_of_lt_of_le hlen (Nat.le_of_lt_succ hfuel), ?_⟩
      rw [hloop, loopM_round hrun (hs1.pos_lt hs3 hlen)]

theorem parseLeft_chain (htable : OpTable op level) (hoperand : LevelReads inp M (level + 1) operand)
    (hm : m.bank = 0) {Q : Expr → PState → Prop} (e : ExprText) {ls : List Lexeme} {s : PState}
    (hlevel : level ≤ e.level) (hlegible : e.legible m.allow = true)
    (hends : e.ends m.allow (nextKind ls) = true) (hfree : freeAt (level + 1) (nextKind ls) = true)
    (hs : At inp m (e.lexemes ++ ls) s) (hM : (e.lexemes ++ ls).length < M)
    (hloop : ∀ (lhs : Expr) (s' : PState) (fuel : Nat), lhs.plain = e.tree → At inp m ls s' →
      ls.length < fuel → Gives (loopM (inp.leftRound s.pos op operand) fuel lhs) s' Q) :
    Gives (inp.parseLeft op operand) s Q := by
  obtain ⟨lhs, s', fuel, h1, hs', hfuel, hrun⟩ :=
    parseLeft_reaches htable hoperand hm e hlevel hlegible hends hfree hs hM
  obtain ⟨a, u, ha, hQ⟩ := hloop lhs s' fuel h1 hs' hfuel
  exact ⟨a, u, hrun.trans ha, hQ⟩

theorem parseLeft_reads (htable : OpTable op level) (hoperand : LevelReads inp M (level + 1) operand) :
    LevelReads inp M level (inp.parseLeft op operand) := by
  intro m e k hm hlevel hlegible hends hfree ls s hs hM hk
  subst hk
  refine parseLeft_chain htable hoperand hm e hlevel hlegible hends
    (freeAt_mono (Nat.le_succ level) hfree) hs hM fun lhs s1 fuel h1 hs1 hfuel => ?_
  obtain ⟨fuel, rfl⟩ := Nat.exists_eq_succ_of_ne_zero (Nat.ne_zero_of_lt hfuel)
  obtain ⟨l, rest, rfl⟩ := List.exists_cons_of_ne_nil hs1.stream.ne_nil
  refine .stop (.peek hs1 fun t ht => ?_)
  rw [show t.kind = l.kind from congrArg Lexeme.kind ht,
    htable.leaves l.kind (freeAt_ne hfree (Nat.le_refl level))]
  exact .pure ⟨rfl, h1, hs1⟩

theorem mulTable : OpTable Input.mulOp 9 where
  lowest := by decide
  highest := by decide
  takes b h := by cases b <;> first | rfl | exact absurd h (by decide)
  leaves k h := by cases k <;> first | rfl | exact absurd rfl h
  left b h := by cases b <;> first | rfl | exact absurd h (by decide)
  right b h := by cases b <;> first | rfl | exact absurd h (by decide)

theorem addTable : OpTable Input.addOp 8 where
  lowest := by decide
  highest := by decide
  takes b h := by cases b <;> first | rfl | exact absurd h (by decide)
  leaves k h := by cases k <;> first | rfl | exact absurd rfl h
  left b h := by cases b <;> first | rfl | exact absurd h (by decide)
  right b h := by cases b <;> first | rfl | exact absurd h (by decide)

theorem shiftTable : OpTable Input.shiftOp 7 where
  lowest := by decide
  highest := by decide
  takes b h := by cases b <;> first | rfl | exact absurd h (by decide)
  leaves k h := by cases k <;> first | rfl | exact absurd rfl h
  left b h := by cases b <;> first | rfl | exact absurd h (by decide)
  right b h := by cases b <;> first | rfl | exact absurd h (by decide)

/-- The levels of one operator. -/
theorem onlyTable {b : BinaryOp} (hlow : 1 ≤ opLevel b) (hhigh : opLevel b ≤ 9)
    (hone : ∀ b', opLevel b' = opLevel b → b' = b) (hleft : leftLevel b = opLevel b)
    (hright : rightLevel b = opLevel b + 1) :
    OpTable (Input.onlyOp (binaryToken b) b) (opLevel b) where
  lowest := hlow
  highest := hhigh
  takes b' h := by
    obtain rfl := hone b' h
    exact if_pos rfl
  leaves k h := by
    have hne : k ≠ binaryToken b := fun heq => h (heq ▸ takenAt_binary b)
    exact if_neg hne
  left b' h := by rw [hone b' h, hleft]
  right b' h := by rw [hone b' h, hright]

theorem bitAndTable : OpTable (Input.onlyOp .amp .bitAnd) 6 :=
  onlyTable (b := .bitAnd) (by decide) (by decide)
    (fun b' h => by cases b' <;> first | rfl | exact absurd h (by decide)) rfl rfl

theorem bitXorTable : OpTable (Input.onlyOp .caret .bitXor) 5 :=
  onlyTable (b := .bitXor) (by decide) (by decide)
    (fun b' h => by cases b' <;> first | rfl | exact absurd h (by decide)) rfl rfl

theorem bitOrTable : OpTable (Input.onlyOp .pipe .bitOr) 4 :=
  onlyTable (b := .bitOr) (by decide) (by decide)
    (fun b' h => by cases b' <;> first | rfl | exact absurd h (by decide)) rfl rfl

theorem andTable : OpTable (Input.onlyOp .ampAmp .and) 2 :=
  onlyTable (b := .and) (by decide) (by decide)
    (fun b' h => by cases b' <;> first | rfl | exact absurd h (by decide)) rfl rfl

theorem orTable : OpTable (Input.onlyOp .pipePipe .or) 1 :=
  onlyTable (b := .or) (by decide) (by decide)
    (fun b' h => by cases b' <;> first | rfl | exact absurd h (by decide)) rfl rfl

/-! ## Comparisons, powers, casts and prefixes -/

theorem cmpOp_token {b : BinaryOp} (h : opLevel b = 3) :
    Input.cmpOp (binaryToken b) = some b ∧ leftLevel b = 4 ∧ rightLevel b = 4 := by
  cases b <;> first | exact ⟨rfl, rfl, rfl⟩ | exact absurd h (by decide)

theorem cmpOp_none {k : TokenKind} (h : takenAt k ≠ some 3) : Input.cmpOp k = none := by
  cases k <;> first | rfl | exact absurd rfl h

theorem parseCmp_reads (hoperand : LevelReads inp M 4 (inp.parseBitor back)) :
    LevelReads inp M 3 (inp.parseCmp back) := by
  intro m e k hm hlevel hlegible hends hfree ls s hs hM hk
  refine .here ?_
  by_cases hhigher : 4 ≤ e.level
  · refine .bind (hoperand m e k hm hhigher hlegible hends (freeAt_mono (by decide) hfree) ls s hs
      hM hk) fun lhs s1 h1 => ?_
    obtain ⟨l, rest, rfl⟩ := List.exists_cons_of_ne_nil h1.2.stream.ne_nil
    refine .peek h1.2 fun t ht => ?_
    rw [show t.kind = k from (congrArg Lexeme.kind ht).trans hk,
      cmpOp_none (freeAt_ne hfree (Nat.le_refl 3))]
    exact .pure h1
  · have heq : e.level = 3 := by omega
    obtain ⟨b, lhs, rhs, rfl, hop⟩ := level_binary heq (by decide) (by decide)
    obtain ⟨htoken, hleft, hright⟩ := cmpOp_token hop
    simp only [ExprText.legible, Bool.and_eq_true, decide_eq_true_eq, hleft, hright] at hlegible
    rw [ExprText.lexemes, List.append_assoc, List.cons_append] at hs hM
    have hbin : freeAt 4 (binaryToken b) = true := by
      rw [freeAt, takenAt_binary, hop]
      rfl
    refine .bind (hoperand m lhs _ hm hlegible.1.1.1.1 hlegible.1.1.1.2 hlegible.1.1.2 hbin _ s hs
      hM rfl) fun lhs' s1 h1 => .peek h1.2 fun t ht => ?_
    rw [show t.kind = binaryToken b from congrArg Lexeme.kind ht, htoken]
    have hne : (symbol (binaryToken b)).kind ≠ .eof := by
      cases b <;> exact TokenKind.noConfusion
    refine .advance h1.2 hne fun s2 (hs2 : At inp m (rhs.lexemes ++ ls) s2) => ?_
    have hlt : (rhs.lexemes ++ ls).length < M := by
      simp only [List.length_append, List.length_cons] at hM ⊢
      omega
    refine .bind (hoperand m rhs k hm hlegible.1.2 hlegible.2 hends
      (freeAt_mono (by decide) hfree) ls s2 hs2 hlt hk) fun rhs' s3 h3 => ?_
    exact .spanned hs.lt fun span => ⟨congrArg₂ (Expr.binary default b) h1.1 h3.1, h3.2⟩

theorem opLevel_pow {b : BinaryOp} (h : opLevel b = 10) : b = .pow := by
  cases b <;> first | rfl | exact absurd h (by decide)

theorem parsePow_reads (hback : ExprsRead inp M back)
    (hoperand : LevelReads inp (M + 1) 11 (inp.parseCast back)) :
    LevelReads inp (M + 1) 10 (inp.parsePow back) := by
  intro m e k hm hlevel hlegible hends hfree ls s hs hM hk
  refine .here ?_
  by_cases hhigher : 11 ≤ e.level
  · refine .bind (hoperand m e k hm hhigher hlegible hends (freeAt_mono (by decide) hfree) ls s hs
      hM hk) fun lhs s1 h1 => ?_
    have hne : nextKind ls ≠ .starStar := by
      intro heq
      rw [hk] at heq
      exact freeAt_ne hfree (Nat.le_refl 10) (heq ▸ rfl)
    exact .decline h1.2 TokenKind.noConfusion hne (.no Bool.false_ne_true (.pure h1))
  · have heq : e.level = 10 := by omega
    obtain ⟨b, lhs, rhs, rfl, hop⟩ := level_binary heq (by decide) (by decide)
    obtain rfl := opLevel_pow hop
    simp only [ExprText.legible, Bool.and_eq_true, decide_eq_true_eq] at hlegible
    rw [ExprText.lexemes, List.append_assoc, List.cons_append] at hs hM
    refine .bind (hoperand m lhs _ hm hlegible.1.1.1.1 hlegible.1.1.1.2 hlegible.1.1.2 rfl _ s hs
      hM rfl) fun lhs' s1 h1 => ?_
    refine .accept h1.2 TokenKind.noConfusion fun s2 (hs2 : At inp m (rhs.lexemes ++ ls) s2) =>
      .yes rfl ?_
    have hlt : (rhs.lexemes ++ ls).length <
        (lhs.lexemes ++ symbol (binaryToken .pow) :: (rhs.lexemes ++ ls)).length := by
      simp only [List.length_append, List.length_cons]
      omega
    have hrhs := (hback.after hs (Nat.le_of_lt_succ hM)).pow m rhs k hm hlegible.1.2 hlegible.2
      hends hfree ls s2 hs2 hlt hk
    exact .bind hrhs fun rhs' s3 h3 =>
      .spanned hs.lt fun span => ⟨congrArg₂ (Expr.binary default .pow) h1.1 h3.1, h3.2⟩

theorem parseCast_reads (hoperand : LevelReads inp M 12 (inp.parseUnary back)) :
    LevelReads inp M 11 (inp.parseCast back) := by
  intro m e k hm hlevel hlegible hends hfree ls s hs hM hk
  refine .here ?_
  by_cases hhigher : 12 ≤ e.level
  · refine .bind (hoperand m e k hm hhigher hlegible hends (freeAt_mono (by decide) hfree) ls s hs
      hM hk) fun inner s1 h1 => ?_
    have hne : nextKind ls ≠ .as := by
      intro heq
      rw [hk] at heq
      exact freeAt_ne hfree (Nat.le_refl 11) (heq ▸ rfl)
    exact .decline h1.2 TokenKind.noConfusion hne (.no Bool.false_ne_true (.pure h1))
  · have heq : e.level = 11 := by omega
    obtain ⟨inner, type, rfl⟩ := level_cast heq
    simp only [ExprText.legible, Bool.and_eq_true, decide_eq_true_eq] at hlegible
    rw [ExprText.lexemes, List.append_assoc, List.cons_append] at hs hM
    refine .bind (hoperand m inner _ hm hlegible.1.1.1 hlegible.1.1.2 hlegible.1.2 rfl _ s hs
      hM rfl) fun inner' s1 h1 => ?_
    refine .accept h1.2 TokenKind.noConfusion
      fun s2 (hs2 : At inp m (munch type.halves ++ ls) s2) => .yes rfl ?_
    refine .bind (parseClosedType_takes hm hlegible.2 hends ls s2 hs2 hs2.lt_fuel hk)
      fun type' s3 h3 => .spanned hs.lt fun span => ⟨?_, h3.2⟩
    exact congrArg₂ (Expr.cast default) h1.1 h3.1

/-- A prefix operator and its operand. -/
def Input.prefixed (inp : Input) (mark : Nat) (guarded : ExprRec) (op : UnaryOp) : PM Expr := do
  inp.advance
  let inner ← guarded.unary
  return .unary (← inp.spanFrom mark) op inner

/-- What `parse_unary` does by the kind of its first token. -/
def Input.unaryBranch (inp : Input) (mark : Nat) (back guarded : ExprRec) (kind : TokenKind) :
    PM Expr := do
  match kind with
  | .minus => inp.prefixed mark guarded .neg
  | .bang => inp.prefixed mark guarded .not
  | .tilde => inp.prefixed mark guarded .bitNot
  | .amp =>
    inp.advance
    let isMut ← inp.accept .mut
    let inner ← guarded.unary
    return .borrow (← inp.spanFrom mark) isMut inner
  | _ => inp.parsePostfix back

theorem Input.parseUnary_eq : inp.parseUnary back = PM.here >>= fun mark =>
    inp.peek >>= fun t => inp.unaryBranch mark back (back.after mark) t.kind := rfl

theorem unaryBranch_postfix {mark : Nat} {guarded : ExprRec} {k : TokenKind}
    (h : prefixOp k = false) : inp.unaryBranch mark back guarded k = inp.parsePostfix back := by
  cases k <;> first | rfl | exact Bool.noConfusion h

theorem level_prefix {e : ExprText} (h : 12 ≤ e.level) :
    (∃ op inner, e = .unary op inner) ∨ (∃ isMut inner, e = .borrow isMut inner) ∨ 14 ≤ e.level := by
  cases e with
  | unary op inner => exact .inl ⟨op, inner, rfl⟩
  | borrow isMut inner => exact .inr (.inl ⟨isMut, inner, rfl⟩)
  | binary b => exact absurd h (by cases b <;> simp [ExprText.level, opLevel])
  | call callee =>
    refine .inr (.inr ?_)
    simp only [ExprText.level]
    split <;> decide
  | _ =>
    simp only [ExprText.level] at h ⊢
    omega

theorem startsAt_prefixOp {k : TokenKind} (h : startsAt 14 k = true) : prefixOp k = false := by
  cases k <;> first | rfl | exact Bool.noConfusion h

theorem startsAt_range {k : TokenKind} (h : startsAt 1 k = true) : Input.isRangeOp k = false := by
  cases k <;> first | rfl | exact Bool.noConfusion h

theorem startsAt_bound {k : TokenKind} (h : startsAt 1 k = true) : Input.endsRange k = false := by
  cases k <;> first | rfl | exact Bool.noConfusion h

theorem parseUnary_reads (hback : ExprsRead inp M back)
    (hoperand : LevelReads inp (M + 1) 14 (inp.parsePostfix back)) :
    LevelReads inp (M + 1) 12 (inp.parseUnary back) := by
  intro m e k hm hlevel hlegible hends hfree ls s hs hM hk
  have hguarded := hback.after hs (Nat.le_of_lt_succ hM)
  rw [Input.parseUnary_eq]
  refine .here ?_
  rcases level_prefix hlevel with ⟨op, inner, rfl⟩ | ⟨isMut, inner, rfl⟩ | hhigher
  · rw [ExprText.legible, Bool.and_eq_true, decide_eq_true_eq] at hlegible
    have hprefixed : Gives (inp.prefixed s.pos (back.after s.pos) op) s fun result s' =>
        result.plain = (ExprText.unary op inner).tree ∧ At inp m ls s' := by
      have hne : (symbol (unaryToken op)).kind ≠ .eof := by
        cases op <;> exact TokenKind.noConfusion
      refine .advance hs hne fun s1 hs1 => ?_
      refine .bind (hguarded.unary m inner k hm hlegible.1 hlegible.2 hends hfree ls s1 hs1
        (Nat.lt_succ_self _) hk) fun inner' s2 h2 => ?_
      exact .spanned hs.lt fun span => ⟨congrArg (Expr.unary default op) h2.1, h2.2⟩
    refine .peek hs fun t ht => ?_
    rw [show t.kind = unaryToken op from congrArg Lexeme.kind ht]
    cases op <;> exact hprefixed
  · rw [ExprText.legible, Bool.and_eq_true, decide_eq_true_eq] at hlegible
    rw [ExprText.lexemes, List.cons_append, List.append_assoc] at hs hguarded
    refine .peek hs fun t ht => ?_
    rw [show t.kind = .amp from congrArg Lexeme.kind ht]
    refine .advance hs TokenKind.noConfusion fun s1 hs1 => ?_
    obtain ⟨l, tl, hl, hstart⟩ := inner.begin m.allow hlegible.2
    have hmut : nextKind (inner.lexemes ++ ls) ≠ .mut := by
      rw [hl]
      exact startsAt_ne hstart rfl
    refine .mut hs1 hmut fun s2 hs2 => ?_
    have hlt : (inner.lexemes ++ ls).length <
        (symbol .amp :: (mutText isMut ++ (inner.lexemes ++ ls))).length := by
      simp only [List.length_append, List.length_cons]
      omega
    refine .bind (hguarded.unary m inner k hm hlegible.1 hlegible.2 hends hfree ls s2 hs2 hlt hk)
      fun inner' s3 h3 => ?_
    exact .spanned hs.lt fun span => ⟨congrArg (Expr.borrow default isMut) h3.1, h3.2⟩
  · obtain ⟨l, tl, hl, hstart⟩ := e.begin m.allow hlegible
    have hs' : At inp m (l :: (tl ++ ls)) s := by
      rwa [hl, List.cons_append] at hs
    refine .peek hs' fun t ht => ?_
    rw [show t.kind = l.kind from congrArg Lexeme.kind ht,
      unaryBranch_postfix (startsAt_prefixOp (startsAt_mono hhigher hstart))]
    exact hoperand m e k hm hhigher hlegible hends (freeAt_mono (by decide) hfree) ls s hs hM hk

/-! ## Ranges -/

theorem parseRangeEnd_gives (hoperand : LevelReads inp M 1 (inp.parseOr back)) (hm : m.bank = 0)
    {op : RangeOp} {start : Option Expr} {stop : Option ExprText} {mark : Nat} {k : TokenKind}
    (hmark : mark < inp.count) (hopen : stop.isNone = true ∨ op ≠ .dotDot)
    (hlegible : ExprText.boundLegible m.allow stop = true)
    (hends : (ExprText.range none op stop).ends m.allow k = true) (hfree : freeAt 0 k = true)
    (hs : At inp m (ExprText.optionLexemes stop ++ ls) s)
    (hM : (ExprText.optionLexemes stop ++ ls).length < M) (hk : nextKind ls = k) :
    Gives (inp.parseRangeEnd mark back start op.token) s fun result s' =>
      result.plain = .range default (Expr.plainOption start) (ExprText.optionTree stop)
        (op == .dotDotEq) ∧ At inp m ls s' := by
  have hinclusive : (op.token == .dotDotEq) = (op == .dotDotEq) := by cases op <;> rfl
  rw [Input.parseRangeEnd, hinclusive]
  cases stop with
  | none =>
    by_cases hdot : op.token = .dotDot
    · exact .yes hdot (.spanned hmark fun span => ⟨rfl, hs⟩)
    · obtain ⟨l, rest, rfl⟩ := List.exists_cons_of_ne_nil hs.stream.ne_nil
      have hendsRange : Input.endsRange k = true := by
        rw [ExprText.ends, Bool.or_eq_true, beq_iff_eq] at hends
        exact hends.resolve_left fun h => hdot (h ▸ rfl)
      refine .no hdot (.peek hs fun t ht => .yes ?_ (.spanned hmark fun span => ⟨rfl, hs⟩))
      rw [show t.kind = k from (congrArg Lexeme.kind ht).trans hk]
      exact hendsRange
  | some stop =>
    rw [ExprText.boundLegible, Bool.and_eq_true, decide_eq_true_eq] at hlegible
    have hdot : op.token ≠ .dotDot := by
      intro h
      rcases hopen with h' | h'
      · exact Bool.noConfusion h'
      · exact h' (by cases op <;> first | rfl | exact TokenKind.noConfusion h)
    obtain ⟨l, tl, hl, hstart⟩ := stop.begin m.allow hlegible.2
    have hs' : At inp m (l :: (tl ++ ls)) s := by
      rwa [ExprText.optionLexemes, hl, List.cons_append] at hs
    refine .no hdot (.peek hs' fun t ht => .no ?_ ?_)
    · rw [show t.kind = l.kind from congrArg Lexeme.kind ht,
        startsAt_bound (startsAt_mono hlegible.1 hstart)]
      exact Bool.false_ne_true
    · refine .bind (hoperand m stop k hm hlegible.1 hlegible.2 hends (freeAt_mono (by decide) hfree)
        ls s hs hM hk) fun stop' s1 h1 => .spanned hmark fun span => ⟨?_, h1.2⟩
      exact congrArg (fun tree => Expr.range default (Expr.plainOption start) (some tree)
        (op == .dotDotEq)) h1.1

theorem level_range {e : ExprText} (h : e.level = 0) : ∃ start op stop, e = .range start op stop := by
  cases e with
  | range start op stop => exact ⟨start, op, stop, rfl⟩
  | binary b => exact absurd h (by cases b <;> simp [ExprText.level, opLevel])
  | call callee args trailing =>
    simp only [ExprText.level] at h
    split at h <;> omega
  | _ =>
    simp only [ExprText.level] at h
    omega

theorem RangeOp.isRangeOp (op : RangeOp) : Input.isRangeOp op.token = true := by
  cases op <;> rfl

theorem RangeOp.token_ne (op : RangeOp) : (symbol op.token).kind ≠ .eof := by
  cases op <;> exact TokenKind.noConfusion

/-- What follows the last part of a range does not depend on its start. -/
theorem range_ends (allow : Bool) (k : TokenKind) (start : Option ExprText) (op : RangeOp)
    (stop : Option ExprText) : (ExprText.range start op stop).ends allow k =
      (ExprText.range none op stop).ends allow k := by
  cases stop <;> rfl

theorem parseRange_reads (hoperand : LevelReads inp M 1 (inp.parseOr back)) :
    LevelReads inp M 0 (inp.parseRange back) := by
  intro m e k hm hlevel hlegible hends hfree ls s hs hM hk
  refine .here ?_
  by_cases hhigher : 1 ≤ e.level
  · obtain ⟨l, tl, hl, hstart⟩ := e.begin m.allow hlegible
    have hs' : At inp m (l :: (tl ++ ls)) s := by
      rwa [hl, List.cons_append] at hs
    refine .peek hs' fun t ht => .no ?_ ?_
    · rw [show t.kind = l.kind from congrArg Lexeme.kind ht,
        startsAt_range (startsAt_mono hhigher hstart)]
      exact Bool.false_ne_true
    · refine .bind (hoperand m e k hm hhigher hlegible hends (freeAt_mono (by decide) hfree) ls s hs
        hM hk) fun lhs s1 h1 => ?_
      obtain ⟨l', rest, rfl⟩ := List.exists_cons_of_ne_nil h1.2.stream.ne_nil
      refine .peek h1.2 fun t ht => .no ?_ (.pure h1)
      rw [show t.kind = k from (congrArg Lexeme.kind ht).trans hk]
      intro hrange
      refine freeAt_ne hfree (Nat.le_refl 0) ?_
      cases k <;> first | rfl | exact Bool.noConfusion hrange
  · obtain ⟨start, op, stop, rfl⟩ := level_range (by omega : e.level = 0)
    simp only [ExprText.legible, Bool.and_eq_true, Bool.or_eq_true, bne_iff_ne] at hlegible
    rw [range_ends] at hends
    rw [ExprText.lexemes, List.append_assoc, List.cons_append] at hs hM
    have hlt : (ExprText.optionLexemes stop ++ ls).length < M := by
      simp only [List.length_append, List.length_cons] at hM ⊢
      omega
    cases start with
    | none =>
      refine .peek hs fun t ht => ?_
      rw [show t.kind = op.token from congrArg Lexeme.kind ht]
      refine .yes op.isRangeOp (.advance hs op.token_ne fun s1 hs1 => ?_)
      exact parseRangeEnd_gives hoperand hm hs.lt hlegible.1.2 hlegible.2 hends hfree hs1 hlt hk
    | some start =>
      rw [ExprText.boundLegible, Bool.and_eq_true, decide_eq_true_eq] at hlegible
      obtain ⟨l, tl, hl, hstart⟩ := start.begin m.allow hlegible.1.1.1.2
      have hs' : At inp m (l :: (tl ++ symbol op.token :: (ExprText.optionLexemes stop ++ ls))) s := by
        rwa [ExprText.optionLexemes, hl, List.cons_append] at hs
      refine .peek hs' fun t ht => .no ?_ ?_
      · rw [show t.kind = l.kind from congrArg Lexeme.kind ht,
          startsAt_range (startsAt_mono hlegible.1.1.1.1 hstart)]
        exact Bool.false_ne_true
      · have hfreeop : freeAt 1 op.token = true := by cases op <;> rfl
        refine .bind (hoperand m start _ hm hlegible.1.1.1.1 hlegible.1.1.1.2 hlegible.1.1.2 hfreeop _
          s hs hM rfl) fun lhs s1 h1 => .peek h1.2 fun t ht => ?_
        rw [show t.kind = op.token from congrArg Lexeme.kind ht]
        refine .yes op.isRangeOp (.advance h1.2 op.token_ne fun s2 hs2 => ?_)
        refine (parseRangeEnd_gives hoperand hm hs.lt hlegible.1.2 hlegible.2 hends hfree hs2 hlt
          hk).mono fun result s3 h3 => ⟨?_, h3.2⟩
        have hstart' : Expr.plainOption (some lhs) = some start.tree := congrArg some h1.1
        exact h3.1.trans (congrArg (Expr.range default · _ _) hstart')

/-! ## All levels -/

/-- From the postfix forms to the ranges, and the three ways back. -/
theorem exprLevels_read (hback : ExprsRead inp M back)
    (hbase : LevelReads inp (M + 1) 14 (inp.parsePostfix back)) :
    ExprsRead inp (M + 1)
      ⟨inp.parseRange back, inp.parsePow back, inp.parseUnary back⟩ := by
  have hunary := parseUnary_reads hback hbase
  have hpow := parsePow_reads hback (parseCast_reads hunary)
  have hmul := parseLeft_reads mulTable hpow
  have hadd := parseLeft_reads addTable hmul
  have hshift := parseLeft_reads shiftTable hadd
  have hbitand := parseLeft_reads bitAndTable hshift
  have hbitxor := parseLeft_reads bitXorTable hbitand
  have hbitor := parseLeft_reads bitOrTable hbitxor
  have hand := parseLeft_reads andTable (parseCmp_reads hbitor)
  exact ⟨parseRange_reads (parseLeft_reads orTable hand), hpow, hunary⟩

end Alcy.Parser
