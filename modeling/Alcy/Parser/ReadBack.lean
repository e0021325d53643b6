import Alcy.Parser.Primaries

/-! # Reading expressions back

Match arms, struct literals and postfix forms, and from them the whole of expressions: `parse_expr`
takes every legible text. -/
namespace Alcy.Parser
open Alcy.Ast Alcy.Diag
open Alcy.Lexer (Token TokenKind)
open PM

variable {inp : Input} {m : Mode} {ls : List Lexeme} {s : PState} {M : Nat} {back : ExprRec}
  {k : TokenKind} {mark : Nat}

/-! ## Match arms -/

theorem Gives.matchSeparator {separator : Bool} {acc : List MatchArm}
    {R : List MatchArm × Bool → PState → Prop} (hs : At inp m (separatorText separator :: ls) s)
    (hR : ∀ s', At inp m ls s' → R (acc, true) s') : Gives (inp.matchRound back acc) s R := by
  cases separator with
  | true =>
    refine .unclosed hs TokenKind.noConfusion TokenKind.noConfusion TokenKind.noConfusion ?_
    exact .accept hs TokenKind.noConfusion fun s1 hs1 => .yes rfl (.pure (hR s1 hs1))
  | false =>
    refine .unclosed hs TokenKind.noConfusion TokenKind.noConfusion TokenKind.noConfusion ?_
    refine .decline hs TokenKind.noConfusion TokenKind.noConfusion (.no Bool.false_ne_true ?_)
    exact .accept hs TokenKind.noConfusion fun s1 hs1 => .yes rfl (.pure (hR s1 hs1))

theorem matchSeparators_reach (back : ExprRec) (acc : List MatchArm) {separators : List Bool} {fuel : Nat}
    (hs : At inp m (separators.map separatorText ++ ls) s)
    (hfuel : (separators.map separatorText ++ ls).length < fuel) :
    ∃ (s' : PState) (fuel' : Nat), At inp m ls s' ∧ ls.length < fuel' ∧
      loopM (inp.matchRound back) fuel acc s = loopM (inp.matchRound back) fuel' acc s' := by
  induction separators generalizing s fuel with
  | nil => exact ⟨s, fuel, hs, hfuel, rfl⟩
  | cons separator separators ih =>
    obtain ⟨fuel, rfl⟩ := Nat.exists_eq_succ_of_ne_zero (Nat.ne_zero_of_lt hfuel)
    rw [List.map_cons, List.cons_append] at hs hfuel
    obtain ⟨r, s1, hrun, rfl, hs1⟩ : Gives (inp.matchRound back acc) s fun r s' => r = (acc, true) ∧
        At inp m (separators.map separatorText ++ ls) s' := .matchSeparator hs fun s1 hs1 => ⟨rfl, hs1⟩
    obtain ⟨s', fuel', hs', hfuel', hloop⟩ := ih hs1 (Nat.lt_of_succ_lt_succ hfuel)
    refine ⟨s', fuel', hs', hfuel', ?_⟩
    rw [loopM_round hrun (hs.pos_lt hs1 (by rw [List.length_cons]; omega)), hloop]

/-- The kinds that stand after the body of an arm. -/
theorem ArmText.nextKind_free (arm : ArmText) : freeAt 0 arm.nextKind = true := by
  obtain ⟨pattern, body, separators⟩ := arm
  cases separators with
  | nil => rfl
  | cons separator separators => cases separator <;> rfl

theorem parseArm_takes (h : ExprsRead inp M back) (hm : m.bank = 0) {pattern : PatternText}
    {body : ExprText} (hpattern : pattern.legible = true) (hbody : body.legible m.allow = true)
    (hends : body.ends m.allow k = true) (hk : freeAt 0 k = true) :
    Takes inp m M (inp.parseArm back) (pattern.lexemes ++ symbol .fatArrow :: body.lexemes) k
      fun result => result.plain = .mk pattern.tree body.tree := by
  intro ls s hs hM hnext
  rw [List.append_assoc, List.cons_append] at hs hM
  refine .bind (parsePattern_takes hpattern rfl _ s hs hM rfl) fun pattern' s1 h1 => ?_
  refine .expect h1.2 TokenKind.noConfusion fun s2 (hs2 : At inp m (body.lexemes ++ ls) s2) => ?_
  have hlt : (body.lexemes ++ ls).length < M := by
    simp only [List.length_append, List.length_cons] at hM ⊢
    omega
  refine .bind (h.takes hm hbody hends hk ls s2 hs2 hlt hnext) fun body' s3 h3 => ?_
  exact .pure ⟨congrArg₂ MatchArm.mk h1.1 h3.1, h3.2⟩

/-- What comes after the body of an arm that is not left without a separator before another arm. -/
theorem nextKind_separators (arm : ArmText) (arms : List ArmText) (ls : List Lexeme)
    (h : arms = [] ∨ arm.nextKind ≠ .rBrace) :
    nextKind (arm.separators.map separatorText ++ (ArmText.listLexemes arms ++ symbol .rBrace :: ls)) =
      arm.nextKind := by
  obtain ⟨pattern, body, _ | ⟨separator, separators⟩⟩ := arm
  · obtain rfl := h.resolve_right fun hne => hne rfl
    rfl
  · rfl

/-- Once an arm with its separators is read, the loop is at what follows with the arm in its list. -/
theorem matchArm_reaches (h : ExprsRead inp M back) (hm : m.bank = 0) (acc : List MatchArm)
    {arm : ArmText} {fuel : Nat} (hlegible : arm.legible m.allow arm.nextKind = true)
    (hnext : nextKind (arm.separators.map separatorText ++ ls) = arm.nextKind)
    (hs : At inp m (arm.lexemes ++ ls) s) (hM : (arm.lexemes ++ ls).length < M)
    (hfuel : (arm.lexemes ++ ls).length < fuel) :
    ∃ (arm' : MatchArm) (s' : PState) (fuel' : Nat), arm'.plain = arm.tree ∧ At inp m ls s' ∧
      ls.length < fuel' ∧
      loopM (inp.matchRound back) fuel acc s = loopM (inp.matchRound back) fuel' (acc ++ [arm']) s' := by
  obtain ⟨fuel, rfl⟩ := Nat.exists_eq_succ_of_ne_zero (Nat.ne_zero_of_lt hfuel)
  have hfree := arm.nextKind_free
  obtain ⟨pattern, body, separators⟩ := arm
  simp only [ArmText.legible, Bool.and_eq_true] at hlegible
  have htext : (ArmText.mk pattern body separators).lexemes ++ ls =
      (pattern.lexemes ++ symbol .fatArrow :: body.lexemes) ++ (separators.map separatorText ++ ls) := by
    simp [ArmText.lexemes]
  rw [htext] at hs hM hfuel
  obtain ⟨l, tl, hl, hstart, -⟩ := pattern.begin
  have hs' : At inp m (l :: (tl ++ symbol .fatArrow :: body.lexemes ++
      (separators.map separatorText ++ ls))) s := by
    rwa [hl, List.cons_append, List.cons_append] at hs
  have harm := parseArm_takes h hm hlegible.1.1 hlegible.1.2 hlegible.2 hfree _ s hs hM hnext
  obtain ⟨r, s1, hrun, ⟨arm', rfl, hplain⟩, hs1⟩ : Gives (inp.matchRound back acc) s fun r s' =>
      (∃ arm', r = (acc ++ [arm'], true) ∧ arm'.plain = .mk pattern.tree body.tree) ∧
        At inp m (separators.map separatorText ++ ls) s' := by
    refine .unclosed hs' TokenKind.noConfusion (startsPattern_ne hstart rfl) (startsPattern_ne hstart rfl) ?_
    refine .decline hs' TokenKind.noConfusion (startsPattern_ne hstart rfl) (.no Bool.false_ne_true ?_)
    refine .decline hs' TokenKind.noConfusion (startsPattern_ne hstart rfl) (.no Bool.false_ne_true ?_)
    exact .recovered harm fun arm' s1 h1 => .pure ⟨⟨arm', rfl, h1.1⟩, h1.2⟩
  have hlen : (separators.map separatorText ++ ls).length <
      ((pattern.lexemes ++ symbol .fatArrow :: body.lexemes) ++
        (separators.map separatorText ++ ls)).length := by
    simp only [List.length_append, List.length_cons]
    omega
  obtain ⟨s', fuel', hs2, hfuel', hloop⟩ := matchSeparators_reach back (acc ++ [arm']) hs1
    (Nat.lt_of_lt_of_le hlen (Nat.le_of_lt_succ hfuel))
  refine ⟨arm', s', fuel', hplain, hs2, hfuel', ?_⟩
  rw [loopM_round hrun (hs.pos_lt hs1 hlen), hloop]

theorem matchRounds_give (h : ExprsRead inp M back) (hm : m.bank = 0) {arms : List ArmText}
    (hlegible : ArmText.listLegible m.allow arms = true) {acc : List MatchArm} {fuel : Nat}
    (hs : At inp m (ArmText.listLexemes arms ++ symbol .rBrace :: ls) s)
    (hM : (ArmText.listLexemes arms ++ symbol .rBrace :: ls).length < M)
    (hfuel : (ArmText.listLexemes arms ++ symbol .rBrace :: ls).length < fuel) :
    Gives (loopM (inp.matchRound back) fuel acc) s fun results s' =>
      results.map MatchArm.plain = acc.map MatchArm.plain ++ ArmText.trees arms ∧
        At inp m (symbol .rBrace :: ls) s' := by
  induction arms generalizing s acc fuel with
  | nil =>
    obtain ⟨fuel, rfl⟩ := Nat.exists_eq_succ_of_ne_zero (Nat.ne_zero_of_lt hfuel)
    refine .stop (.closed hs TokenKind.noConfusion rfl (.pure ⟨rfl, ?_, hs⟩))
    exact (List.append_nil _).symm
  | cons arm arms ih =>
    simp only [ArmText.listLegible, Bool.and_eq_true, Bool.or_eq_true, List.isEmpty_iff,
      bne_iff_ne] at hlegible
    rw [ArmText.listLexemes, List.append_assoc] at hs hM hfuel
    obtain ⟨arm', s1, fuel1, h1, hs1, hfuel1, hloop⟩ := matchArm_reaches h hm acc hlegible.1.1
      (nextKind_separators arm arms ls hlegible.1.2) hs hM hfuel
    have hM1 : (ArmText.listLexemes arms ++ symbol .rBrace :: ls).length < M := by
      simp only [List.length_append, List.length_cons] at hM ⊢
      omega
    obtain ⟨results, s2, hrun, h2⟩ := ih hlegible.2 hs1 hM1 hfuel1
    refine ⟨results, s2, hloop.trans hrun, ?_, h2.2⟩
    rw [h2.1, List.map_append, List.map_singleton, h1, List.append_assoc]
    rfl

theorem parseMatch_takes (h : ExprsRead inp M back) (hm : m.bank = 0) {scrutinee : ExprText}
    {arms : List ArmText} (hlegible : (ExprText.matchExpr scrutinee arms).legible m.allow = true) :
    Takes inp m (M + 1) (inp.parseMatch back) (ExprText.matchExpr scrutinee arms).lexemes k
      fun result => result.plain = (ExprText.matchExpr scrutinee arms).tree := by
  intro ls s hs hM hnext
  have hback := h.after hs (Nat.le_of_lt_succ hM)
  simp only [ExprText.legible, Bool.and_eq_true] at hlegible
  rw [ExprText.lexemes, List.cons_append, List.append_assoc, List.cons_append, List.append_assoc,
    List.singleton_append] at hs hback
  refine .here (.expect hs TokenKind.noConfusion fun s1 hs1 => ?_)
  have hbarred : m.barred.bank = 0 := hm
  refine .bind (.barred (hback.takes hbarred hlegible.1.1 hlegible.1.2 rfl) hs1 (Nat.lt_succ_self _)
    rfl) fun scrutinee' s2 h2 => ?_
  refine .expect h2.2 TokenKind.noConfusion fun s3 (hs3 : At inp m
    (ArmText.listLexemes arms ++ symbol .rBrace :: ls) s3) => ?_
  refine .bind (matchRounds_give hback hm hlegible.2 hs3 ?_ hs3.lt_fuel) fun arms' s4 h4 => ?_
  · simp only [List.length_append, List.length_cons]
    omega
  refine .expect h4.2 TokenKind.noConfusion fun s5 hs5 => .spanned hs.lt fun span => ⟨?_, hs5⟩
  exact congrArg₂ (Expr.matchExpr default) h2.1 ((MatchArm.plainAll_eq _).trans h4.1)

/-! ## Struct literals -/

/-- The fields and then the base, up to the closing brace. With a base, every field has its comma. -/
theorem fieldRounds_give (h : ExprsRead inp M back) (hm : m.bank = 0) {fields : List FieldText}
    {trailing : Bool} {base : Option ExprText}
    (hfields : FieldText.listLegible m.allow (trailing || base.isSome) fields = true)
    (hbase : ExprText.optionLegible m.allow .rBrace base = true) {acc : List FieldInit} {fuel : Nat}
    (hs : At inp m (FieldText.listLexemes (trailing || base.isSome) fields ++
      (ExprText.baseLexemes base ++ symbol .rBrace :: ls)) s)
    (hM : (FieldText.listLexemes (trailing || base.isSome) fields ++
      (ExprText.baseLexemes base ++ symbol .rBrace :: ls)).length < M)
    (hfuel : (FieldText.listLexemes (trailing || base.isSome) fields ++
      (ExprText.baseLexemes base ++ symbol .rBrace :: ls)).length < fuel) :
    Gives (loopM (inp.fieldRound back) fuel (acc, none)) s fun r s' =>
      (r.1.map FieldInit.plain = acc.map FieldInit.plain ++ FieldText.trees fields ∧
        Expr.plainOption r.2 = ExprText.optionTree base) ∧ At inp m (symbol .rBrace :: ls) s' := by
  induction fields generalizing s acc fuel with
  | nil =>
    obtain ⟨fuel, rfl⟩ := Nat.exists_eq_succ_of_ne_zero (Nat.ne_zero_of_lt hfuel)
    cases base with
    | none =>
      refine .stop (.closed hs TokenKind.noConfusion rfl (.pure ⟨rfl, ⟨?_, rfl⟩, hs⟩))
      exact (List.append_nil _).symm
    | some base =>
      rw [ExprText.optionLegible, Bool.and_eq_true] at hbase
      refine .stop (.unclosed hs TokenKind.noConfusion TokenKind.noConfusion TokenKind.noConfusion ?_)
      refine .accept hs TokenKind.noConfusion fun s1 (hs1 : At inp m
        (base.lexemes ++ symbol .rBrace :: ls) s1) => .yes rfl ?_
      refine .bind (h.takes hm hbase.1 hbase.2 rfl _ s1 hs1 (Nat.lt_of_succ_lt hM) rfl)
        fun base' s2 h2 => .pure ⟨rfl, ⟨(List.append_nil _).symm, congrArg some h2.1⟩, h2.2⟩
  | cons field fields ih =>
    obtain ⟨fuel, rfl⟩ := Nat.exists_eq_succ_of_ne_zero (Nat.ne_zero_of_lt hfuel)
    obtain ⟨name, value⟩ := field
    rw [FieldText.listLegible, FieldText.legible, Bool.and_eq_true, Bool.and_eq_true] at hfields
    generalize hrest : ExprText.baseLexemes base ++ symbol .rBrace :: ls = rest at hs hM hfuel ih
    have htext : FieldText.listLexemes (trailing || base.isSome) (.mk name value :: fields) ++ rest =
        identText name :: symbol .colon :: (value.lexemes ++
          ((if fields.isEmpty && !(trailing || base.isSome) then [] else [symbol .comma]) ++
            (FieldText.listLexemes (trailing || base.isSome) fields ++ rest))) := by
      simp only [FieldText.listLexemes, FieldText.lexemes, List.append_assoc, List.cons_append]
    rw [htext] at hs hM hfuel
    have hs0 : At inp m ([identText name] ++ symbol .colon :: (value.lexemes ++
          ((if fields.isEmpty && !(trailing || base.isSome) then [] else [symbol .comma]) ++
            (FieldText.listLexemes (trailing || base.isSome) fields ++ rest)))) s := hs
    have hvalue : ∀ {R : (List FieldInit × Option Expr) × Bool → PState → Prop},
        (∀ (name' : Ident) (value' : Expr) (s' : PState),
          (FieldInit.mk name' value').plain = (FieldText.mk name value).tree →
          At inp m ((if fields.isEmpty && !(trailing || base.isSome) then [] else [symbol .comma]) ++
            (FieldText.listLexemes (trailing || base.isSome) fields ++ rest)) s' →
          Gives (inp.accept .comma >>= fun more =>
            if more then pure ((acc ++ [FieldInit.mk name' value'], none), true)
            else pure ((acc ++ [FieldInit.mk name' value'], none), false)) s' R) →
        Gives (inp.fieldRound back (acc, none)) s R := by
      intro R hR
      refine .unclosed hs TokenKind.noConfusion TokenKind.noConfusion TokenKind.noConfusion ?_
      refine .decline hs TokenKind.noConfusion TokenKind.noConfusion (.no Bool.false_ne_true ?_)
      refine .bind (parseIdent_takes name _ _ s hs0 hM rfl) fun name' s1 h1 => ?_
      refine .expect h1.2 TokenKind.noConfusion fun s2 hs2 => ?_
      refine .bind (h.takes hm hfields.1.1 hfields.1.2 ?_ _ s2 hs2 ?_ ?_) fun value' s3 h3 =>
        hR name' value' s3 (congrArg₂ FieldInit.mk h1.1 h3.1) h3.2
      · split <;> rfl
      · simp only [List.length_append, List.length_cons] at hM ⊢
        omega
      · split
        · rename_i hlast
          rw [Bool.and_eq_true, Bool.not_eq_true', Bool.or_eq_false_iff] at hlast
          have hnone : base = none := Option.isNone_iff_eq_none.1 (by simp [← Option.not_isSome, hlast.2.2])
          rw [List.isEmpty_iff.1 hlast.1, ← hrest, hnone]
          rfl
        · rfl
    by_cases hlast : (fields.isEmpty && !(trailing || base.isSome)) = true
    · rw [if_pos hlast] at hvalue
      rw [Bool.and_eq_true, Bool.not_eq_true', Bool.or_eq_false_iff] at hlast
      obtain rfl : fields = [] := List.isEmpty_iff.1 hlast.1
      obtain rfl : base = none := Option.isNone_iff_eq_none.1 (by simp [← Option.not_isSome, hlast.2.2])
      subst hrest
      refine .stop (hvalue fun name' value' s1 h1 hs1 => ?_)
      refine .decline hs1 TokenKind.noConfusion TokenKind.noConfusion (.no Bool.false_ne_true ?_)
      refine .pure ⟨rfl, ⟨?_, rfl⟩, hs1⟩
      rw [List.map_append, List.map_singleton, h1]
      rfl
    · rw [if_neg hlast] at hvalue
      refine .round (hvalue fun name' value' s1 h1 hs1 => ?_)
      refine .accept hs1 TokenKind.noConfusion fun s2 (hs2 : At inp m
        (FieldText.listLexemes (trailing || base.isSome) fields ++ rest) s2) => .yes rfl ?_
      have hlt : (FieldText.listLexemes (trailing || base.isSome) fields ++ rest).length <
          (identText name :: symbol .colon :: (value.lexemes ++
            ((if fields.isEmpty && !(trailing || base.isSome) then [] else [symbol .comma]) ++
              (FieldText.listLexemes (trailing || base.isSome) fields ++ rest)))).length := by
        simp only [List.length_append, List.length_cons]
        omega
      refine .pure ⟨rfl, hs.pos_lt hs2 hlt, ?_⟩
      refine (ih hfields.2 hs2 (Nat.lt_trans hlt hM)
        (Nat.lt_of_lt_of_le hlt (Nat.le_of_lt_succ hfuel))).mono fun r s3 h3 =>
          ⟨⟨?_, h3.1.2⟩, h3.2⟩
      rw [h3.1.1, List.map_append, List.map_singleton, h1, List.append_assoc]
      rfl

theorem parseStructLit_gives (h : ExprsRead inp M back) (hm : m.bank = 0) {path : PathText}
    {path' : Path} (hpath : path'.plain = path.tree) (hmark : mark < inp.count)
    {fields : List FieldText} {trailing : Bool} {base : Option ExprText}
    (hfields : FieldText.listLegible m.allow (trailing || base.isSome) fields = true)
    (hbase : ExprText.optionLegible m.allow .rBrace base = true)
    (hs : At inp m (FieldText.listLexemes (trailing || base.isSome) fields ++
      (ExprText.baseLexemes base ++ symbol .rBrace :: ls)) s)
    (hM : (FieldText.listLexemes (trailing || base.isSome) fields ++
      (ExprText.baseLexemes base ++ symbol .rBrace :: ls)).length < M) :
    Gives (inp.parseStructLit mark back path') s fun result s' =>
      result.plain = (ExprText.struct path fields trailing base).tree ∧ At inp m ls s' := by
  refine .bind (fieldRounds_give h hm hfields hbase hs hM hs.lt_fuel) fun r s1 h1 => ?_
  obtain ⟨fields', base'⟩ := r
  have htree : ∀ span, (Expr.struct span path' fields' base').plain =
      (ExprText.struct path fields trailing base).tree := by
    intro span
    rw [Expr.plain, hpath, FieldInit.plainAll_eq, h1.1.1, h1.1.2, ExprText.tree]
    rfl
  cases base' with
  | some base' =>
    refine .step rfl (.expect h1.2 TokenKind.noConfusion fun s2 hs2 => ?_)
    exact .spanned hmark fun span => ⟨htree span, hs2⟩
  | none =>
    refine .decline h1.2 TokenKind.noConfusion TokenKind.noConfusion (.step rfl ?_)
    refine .expect h1.2 TokenKind.noConfusion fun s2 hs2 => ?_
    exact .spanned hmark fun span => ⟨htree span, hs2⟩

/-! ## Primary expressions -/

theorem literalToken_ne (kind : LiteralKind) (spelling : String) :
    (literalText kind spelling).kind ≠ .eof :=
  startsPattern_ne (startsPattern_literal kind spelling) rfl

/-- A path, and the arguments of a call or the fields of a struct literal after it. -/
theorem parsePathExpr_path (hmark : mark < inp.count) {path : PathText}
    (hends : (ExprText.path path).ends m.allow (nextKind ls) = true)
    (hs : At inp m (path.lexemes ++ ls) s) :
    Gives (inp.parsePathExpr mark back) s fun result s' =>
      result.plain = (ExprText.path path).tree ∧ At inp m ls s' := by
  simp only [ExprText.ends, Bool.and_eq_true, bne_iff_ne, Bool.not_eq_true', Bool.and_eq_false_iff,
    beq_eq_false_iff_ne] at hends
  refine .bind (parsePath_gives hs hends.1.1) fun path' s1 h1 => ?_
  refine .decline h1.2 TokenKind.noConfusion hends.1.2 (.no Bool.false_ne_true ?_)
  have hstruct : inp.acceptStructLit s1 = .ok (some false, s1) := by
    rw [Input.acceptStructLit, bind_run]
    change (if s1.allowStructLit then inp.accept .lBrace else pure false) s1 = _
    rw [h1.2.allow]
    rcases hends.2 with hallow | hne
    · rw [hallow]
      rfl
    · split
      · exact h1.2.accept_no TokenKind.noConfusion hne
      · rfl
  refine .step hstruct (.no Bool.false_ne_true (.spanned hmark fun span => ⟨?_, h1.2⟩))
  exact congrArg (Expr.path default) h1.1

theorem parsePathExpr_call (h : ExprsRead inp M back) (hm : m.bank = 0) (hmark : mark < inp.count)
    {path : PathText} {args : List ExprText} {trailing : Bool}
    (hlegible : ExprText.listLegible m.allow .rParen trailing args = true)
    (hs : At inp m (path.lexemes ++
      symbol .lParen :: (ExprText.listLexemes trailing args ++ symbol .rParen :: ls)) s)
    (hM : (path.lexemes ++
      symbol .lParen :: (ExprText.listLexemes trailing args ++ symbol .rParen :: ls)).length ≤ M) :
    Gives (inp.parsePathExpr mark back) s fun result s' =>
      result.plain = (ExprText.call (.path path) args trailing).tree ∧ At inp m ls s' := by
  refine .bind (parsePath_gives hs TokenKind.noConfusion) fun path' s1 h1 => ?_
  refine .accept h1.2 TokenKind.noConfusion fun s2 (hs2 : At inp m
    (ExprText.listLexemes trailing args ++ symbol .rParen :: ls) s2) => .yes rfl ?_
  refine .bind (parseArgs_gives h hm hlegible hs2 ?_) fun args' s3 h3 => ?_
  · refine Nat.lt_of_lt_of_le ?_ hM
    simp only [List.length_append, List.length_cons]
    omega
  refine .spanned hmark fun span => ⟨?_, h3.2⟩
  exact congrArg₂ (Expr.call default) (congrArg (Expr.path default) h1.1) h3.1

theorem parsePathExpr_struct (h : ExprsRead inp M back) (hm : m.bank = 0) (hmark : mark < inp.count)
    {path : PathText} {fields : List FieldText} {trailing : Bool} {base : Option ExprText}
    (hlegible : (ExprText.struct path fields trailing base).legible m.allow = true)
    (hs : At inp m ((ExprText.struct path fields trailing base).lexemes ++ ls) s)
    (hM : ((ExprText.struct path fields trailing base).lexemes ++ ls).length ≤ M) :
    Gives (inp.parsePathExpr mark back) s fun result s' =>
      result.plain = (ExprText.struct path fields trailing base).tree ∧ At inp m ls s' := by
  simp only [ExprText.legible, Bool.and_eq_true] at hlegible
  rw [ExprText.lexemes, List.append_assoc, List.cons_append, List.append_assoc, List.append_assoc,
    List.singleton_append] at hs hM
  refine .bind (parsePath_gives hs TokenKind.noConfusion) fun path' s1 h1 => ?_
  refine .decline h1.2 TokenKind.noConfusion TokenKind.noConfusion (.no Bool.false_ne_true ?_)
  obtain ⟨s2, hrun, hs2⟩ := h1.2.accept_yes TokenKind.noConfusion
  have hstruct : inp.acceptStructLit s1 = .ok (some true, s2) := by
    rw [Input.acceptStructLit, bind_run]
    change (if s1.allowStructLit then inp.accept .lBrace else pure false) s1 = _
    rw [h1.2.allow, hlegible.1.1, if_pos rfl]
    exact hrun
  refine .step hstruct (.yes rfl ?_)
  refine parseStructLit_gives h hm h1.1 hmark hlegible.1.2 hlegible.2 hs2 ?_
  refine Nat.lt_of_lt_of_le ?_ hM
  simp only [List.length_append, List.length_cons]
  omega

/-- What `parse_primary` does by the kind of its first token. -/
def Input.primaryBranch (inp : Input) (mark : Nat) (back guarded : ExprRec) (t : Token)
    (kind : TokenKind) : PM Expr := do
  match kind with
  | .lParen =>
    inp.advance
    inp.parseParenExpr mark guarded
  | .lBrace => inp.parseBlockExpr back
  | .if => inp.parseIf back
  | .match => inp.parseMatch back
  | .loop => inp.parseLoop back
  | .while => inp.parseWhile back
  | .ret =>
    inp.advance
    inp.parseReturn mark guarded
  | .break =>
    inp.advance
    return .breakExpr (← inp.spanFrom mark)
  | .continue =>
    inp.advance
    return .continueExpr (← inp.spanFrom mark)
  | kind =>
    match Input.literalKind kind with
    | some literal =>
      inp.advance
      return .literal (← inp.spanFrom mark) (inp.tokenLiteral literal t)
    | none => inp.parsePathExpr mark guarded

theorem Input.parsePrimary_eq : inp.parsePrimary back = PM.here >>= fun mark =>
    inp.peek >>= fun t => inp.primaryBranch mark back (back.after mark) t t.kind := rfl

theorem primaryBranch_segment {guarded : ExprRec} {t : Token} (name : String) :
    inp.primaryBranch mark back guarded t (segmentKind name) = inp.parsePathExpr mark guarded := by
  rcases segmentKind_cases name with h | h | h | h | h <;> rw [h] <;> rfl

/-- A return with a value: an expression begins with nothing that would end it. -/
theorem parseReturn_gives (h : ExprsRead inp M back) (hm : m.bank = 0) (hmark : mark < inp.count)
    {value : Option ExprText} (hlegible : (ExprText.returnExpr value).legible m.allow = true)
    (hends : (ExprText.returnExpr value).ends m.allow (nextKind ls) = true)
    (hs : At inp m (ExprText.optionLexemes value ++ ls) s)
    (hM : (ExprText.optionLexemes value ++ ls).length < M) :
    Gives (inp.parseReturn mark back) s fun result s' =>
      result.plain = (ExprText.returnExpr value).tree ∧ At inp m ls s' := by
  cases value with
  | none =>
    rw [ExprText.optionLexemes, List.nil_append] at hs
    obtain ⟨l, rest, rfl⟩ := List.exists_cons_of_ne_nil hs.stream.ne_nil
    refine .check hs TokenKind.noConfusion (.check hs TokenKind.noConfusion (.atEnd hs ?_))
    exact .yes hends (.spanned hmark fun span => ⟨rfl, hs⟩)
  | some value =>
    rw [ExprText.ends, Bool.and_eq_true] at hends
    have hlegible : value.legible m.allow = true := hlegible
    obtain ⟨l, tl, hl, hstart⟩ := value.begin m.allow hlegible
    have hs' : At inp m (l :: (tl ++ ls)) s := by
      rwa [ExprText.optionLexemes, hl, List.cons_append] at hs
    refine .check hs' TokenKind.noConfusion (.check hs' TokenKind.noConfusion (.atEnd hs' (.no ?_ ?_)))
    · rw [nextKind_cons, beq_eq_false_iff_ne.2 (startsAt_ne hstart rfl),
        beq_eq_false_iff_ne.2 (startsAt_ne hstart rfl), beq_eq_false_iff_ne.2 (startsAt_ne hstart rfl)]
      exact Bool.false_ne_true
    · refine .bind (h.takes hm hlegible hends.2 hends.1 ls s hs hM rfl) fun value' s1 h1 => ?_
      refine .spanned hmark fun span => ⟨?_, h1.2⟩
      exact congrArg (fun tree => Expr.returnExpr default (some tree)) h1.1

theorem parsePrimary_reads (h : ExprsRead inp M back) :
    LevelReads inp (M + 1) 15 (inp.parsePrimary back) := by
  intro m e k hm hlevel hlegible hends hfree ls s hs hM hk
  have hmark := hs.lt
  have hguarded := h.after hs (Nat.le_of_lt_succ hM)
  rw [Input.parsePrimary_eq]
  refine .here ?_
  cases e with
  | literal kind spelling =>
    refine .peek hs fun t ht => ?_
    rw [show t.kind = literalToken kind spelling from congrArg Lexeme.kind ht]
    have hplain := tokenLiteral_plain ht
    have hlit : Gives (inp.advance >>= fun _ => inp.spanFrom s.pos >>= fun span =>
        pure (Expr.literal span (inp.tokenLiteral kind t))) s fun result s' =>
          result.plain = (ExprText.literal kind spelling).tree ∧ At inp m ls s' :=
      .advance hs (literalToken_ne kind spelling) fun s1 hs1 =>
        .spanned hmark fun span => ⟨congrArg (Expr.literal default) hplain, hs1⟩
    cases kind with
    | bool =>
      rw [literalToken]
      split <;> exact hlit
    | _ => exact hlit
  | path path =>
    refine .peek hs fun t ht => ?_
    rw [show t.kind = segmentKind path.first from congrArg Lexeme.kind ht, primaryBranch_segment]
    exact parsePathExpr_path hmark (hk ▸ hends) hs
  | struct path fields trailing base =>
    refine .peek hs fun t ht => ?_
    rw [show t.kind = segmentKind path.first from congrArg Lexeme.kind ht, primaryBranch_segment]
    exact parsePathExpr_struct hguarded hm hmark hlegible hs (Nat.le_refl _)
  | tuple elements trailing =>
    rw [ExprText.lexemes, List.cons_append, List.append_assoc, List.singleton_append] at hs hguarded
    refine .peek hs fun t ht => ?_
    rw [show t.kind = .lParen from congrArg Lexeme.kind ht]
    refine .advance hs TokenKind.noConfusion fun s1 hs1 => ?_
    exact parseParenExpr_tuple hguarded hm hmark hlegible hs1 (Nat.lt_succ_self _)
  | paren inner =>
    rw [ExprText.legible, Bool.and_eq_true] at hlegible
    rw [ExprText.lexemes, List.cons_append, List.append_assoc, List.singleton_append] at hs hguarded
    refine .peek hs fun t ht => ?_
    rw [show t.kind = .lParen from congrArg Lexeme.kind ht]
    refine .advance hs TokenKind.noConfusion fun s1 hs1 => ?_
    have hparen : Gives (inp.parseParenExpr s.pos (back.after s.pos)) s1 fun result s' =>
        result.plain = inner.tree ∧ At inp m ls s' :=
      parseParenExpr_paren hguarded hm hlegible.1 hlegible.2 hs1 (Nat.lt_succ_self _)
    exact hparen
  | call callee args trailing =>
    have hpath : callee.isPath = true := by
      simp only [ExprText.level] at hlevel
      split at hlevel
      · assumption
      · omega
    cases callee with
    | path path =>
      simp only [ExprText.legible, Bool.and_eq_true] at hlegible
      rw [ExprText.lexemes, ExprText.lexemes, List.append_assoc, List.cons_append, List.append_assoc,
        List.singleton_append] at hs hguarded
      refine .peek hs fun t ht => ?_
      rw [show t.kind = segmentKind path.first from congrArg Lexeme.kind ht, primaryBranch_segment]
      exact parsePathExpr_call hguarded hm hmark hlegible.2 hs (Nat.le_refl _)
    | _ => exact absurd hpath Bool.noConfusion
  | ifExpr cond thenBlock elseBlock =>
    refine .peek hs fun t ht => ?_
    rw [show t.kind = .if from congrArg Lexeme.kind ht]
    exact parseIf_takes h hm hlegible hends ls s hs hM hk
  | matchExpr scrutinee arms =>
    refine .peek hs fun t ht => ?_
    rw [show t.kind = .match from congrArg Lexeme.kind ht]
    exact parseMatch_takes h hm hlegible ls s hs hM hk
  | loop body =>
    refine .peek hs fun t ht => ?_
    rw [show t.kind = .loop from congrArg Lexeme.kind ht]
    exact parseLoop_takes h hm hlegible ls s hs hM hk
  | whileExpr cond body =>
    refine .peek hs fun t ht => ?_
    rw [show t.kind = .while from congrArg Lexeme.kind ht]
    exact parseWhile_takes h hm hlegible ls s hs hM hk
  | block block =>
    obtain ⟨tl, htl⟩ := block.begin
    have hs' : At inp m (symbol .lBrace :: (tl ++ ls)) s := by
      rwa [ExprText.lexemes, htl, List.cons_append] at hs
    refine .peek hs' fun t ht => ?_
    rw [show t.kind = .lBrace from congrArg Lexeme.kind ht]
    exact parseBlockExpr_takes h hm hlegible ls s hs hM hk
  | returnExpr value =>
    refine .peek hs fun t ht => ?_
    rw [show t.kind = .ret from congrArg Lexeme.kind ht]
    refine .advance hs TokenKind.noConfusion fun s1 hs1 => ?_
    exact parseReturn_gives hguarded hm hmark hlegible (hk ▸ hends) hs1 (Nat.lt_succ_self _)
  | breakExpr =>
    refine .peek hs fun t ht => ?_
    rw [show t.kind = .break from congrArg Lexeme.kind ht]
    exact .advance hs TokenKind.noConfusion fun s1 hs1 => .spanned hmark fun span => ⟨rfl, hs1⟩
  | continueExpr =>
    refine .peek hs fun t ht => ?_
    rw [show t.kind = .continue from congrArg Lexeme.kind ht]
    exact .advance hs TokenKind.noConfusion fun s1 hs1 => .spanned hmark fun span => ⟨rfl, hs1⟩
  | binary b => exact absurd hlevel (by cases b <;> simp [ExprText.level, opLevel])
  | _ => exact absurd hlevel (by simp [ExprText.level])

/-! ## Postfix forms -/

theorem Input.parsePostfix_eq : inp.parsePostfix back = PM.here >>= fun mark =>
    inp.parsePrimary back >>= fun base =>
      loopM (inp.postfixRound mark (back.after mark)) inp.loopFuel base := rfl

theorem level_postfix {e : ExprText} (h : e.level = 14) :
    (∃ callee args trailing, e = .call callee args trailing ∧ callee.isPath = false) ∨
    (∃ receiver name args trailing, e = .methodCall receiver name args trailing) ∨
    (∃ receiver name, e = .field receiver name) ∨ (∃ receiver place, e = .index receiver place) ∨
    (∃ inner, e = .question inner) := by
  cases e with
  | call callee args trailing =>
    refine .inl ⟨callee, args, trailing, rfl, ?_⟩
    simp only [ExprText.level] at h
    split at h
    · omega
    · exact Bool.eq_false_iff.2 ‹_›
  | methodCall receiver name args trailing => exact .inr (.inl ⟨receiver, name, args, trailing, rfl⟩)
  | field receiver name => exact .inr (.inr (.inl ⟨receiver, name, rfl⟩))
  | index receiver place => exact .inr (.inr (.inr (.inl ⟨receiver, place, rfl⟩)))
  | question inner => exact .inr (.inr (.inr (.inr ⟨inner, rfl⟩)))
  | binary b => exact absurd h (by cases b <;> simp [ExprText.level, opLevel])
  | _ => exact absurd h (by simp [ExprText.level])

variable {base : Expr} {R : Expr × Bool → PState → Prop}

theorem postfixRound_call (h : ExprsRead inp M back) (hm : m.bank = 0) (hmark : mark < inp.count)
    {callee : ExprText} (hbase : base.plain = callee.tree) {args : List ExprText} {trailing : Bool}
    (hlegible : ExprText.listLegible m.allow .rParen trailing args = true)
    (hs : At inp m
      (symbol .lParen :: (ExprText.listLexemes trailing args ++ symbol .rParen :: ls)) s)
    (hM : (ExprText.listLexemes trailing args ++ symbol .rParen :: ls).length < M)
    (hR : ∀ (result : Expr) (s' : PState), result.plain = (ExprText.call callee args trailing).tree →
      At inp m ls s' → R (result, true) s') : Gives (inp.postfixRound mark back base) s R := by
  refine .accept hs TokenKind.noConfusion fun s1 hs1 => .yes rfl ?_
  refine .bind (parseArgs_gives h hm hlegible hs1 hM) fun args' s2 h2 => .spanned hmark fun span => ?_
  exact hR _ s2 (congrArg₂ (Expr.call default) hbase h2.1) h2.2

theorem postfixRound_member (hs : At inp m (symbol .dot :: ls) s)
    (hmember : ∀ s', At inp m ls s' → Gives (inp.parseMember mark back base) s'
      fun result s2 => R (result, true) s2) : Gives (inp.postfixRound mark back base) s R := by
  refine .decline hs TokenKind.noConfusion TokenKind.noConfusion (.no Bool.false_ne_true ?_)
  refine .accept hs TokenKind.noConfusion fun s1 hs1 => .yes rfl ?_
  exact .bind (hmember s1 hs1) fun result s2 h2 => .pure h2

theorem parseMember_method (h : ExprsRead inp M back) (hm : m.bank = 0) (hmark : mark < inp.count)
    {receiver : ExprText} (hbase : base.plain = receiver.tree) {name : String}
    {args : List ExprText} {trailing : Bool}
    (hlegible : ExprText.listLegible m.allow .rParen trailing args = true)
    (hs : At inp m (identText name ::
      symbol .lParen :: (ExprText.listLexemes trailing args ++ symbol .rParen :: ls)) s)
    (hM : (ExprText.listLexemes trailing args ++ symbol .rParen :: ls).length < M) :
    Gives (inp.parseMember mark back base) s fun result s' =>
      result.plain = (ExprText.methodCall receiver name args trailing).tree ∧ At inp m ls s' := by
  refine .peek hs fun t ht => .no ?_ ?_
  · rw [show t.kind = .ident from congrArg Lexeme.kind ht]
    exact TokenKind.noConfusion
  refine .bind (parseIdent_takes name _ _ s hs hs.lt_fuel rfl) fun name' s1 h1 => ?_
  refine .accept h1.2 TokenKind.noConfusion fun s2 hs2 => .yes rfl ?_
  refine .bind (parseArgs_gives h hm hlegible hs2 hM) fun args' s3 h3 =>
    .spanned hmark fun span => ⟨?_, h3.2⟩
  change Expr.methodCall default base.plain name'.plain (Expr.plainAll args') = _
  rw [hbase, h1.1, h3.1]
  rfl

theorem parseMember_field (hmark : mark < inp.count) {receiver : ExprText}
    (hbase : base.plain = receiver.tree) {name : String}
    (hends : (ExprText.field receiver name).ends m.allow (nextKind ls) = true)
    (hs : At inp m (memberText name :: ls) s) :
    Gives (inp.parseMember mark back base) s fun result s' =>
      result.plain = (ExprText.field receiver name).tree ∧ At inp m ls s' := by
  by_cases hindex : indexName name = true
  · have hkind : (memberText name).kind = .integer := if_pos hindex
    refine .peek hs fun t ht => .yes ((congrArg Lexeme.kind ht).trans hkind) ?_
    refine .advance hs (by rw [hkind]; exact TokenKind.noConfusion) fun s1 hs1 => ?_
    refine .spanned hmark fun span => ⟨?_, hs1⟩
    exact congrArg₂ (Expr.field default) hbase (tokenIdent_plain ht (by rw [hkind]; rfl))
  · have htext : memberText name = identText name := by rw [memberText, if_neg hindex, identText]
    rw [htext] at hs
    rw [ExprText.ends, Bool.or_eq_true, bne_iff_ne] at hends
    refine .peek hs fun t ht => .no ?_ ?_
    · rw [show t.kind = .ident from congrArg Lexeme.kind ht]
      exact TokenKind.noConfusion
    refine .bind (parseIdent_takes name _ _ s hs hs.lt_fuel rfl) fun name' s1 h1 => ?_
    refine .decline h1.2 TokenKind.noConfusion (hends.resolve_left hindex) ?_
    refine .no Bool.false_ne_true (.spanned hmark fun span => ⟨?_, h1.2⟩)
    exact congrArg₂ (Expr.field default) hbase h1.1

theorem postfixRound_index (h : ExprsRead inp M back) (hm : m.bank = 0) (hmark : mark < inp.count)
    {receiver place : ExprText} (hbase : base.plain = receiver.tree)
    (hlegible : place.legible m.allow = true) (hends : place.ends m.allow .rBracket = true)
    (hs : At inp m (symbol .lBracket :: (place.lexemes ++ symbol .rBracket :: ls)) s)
    (hM : (place.lexemes ++ symbol .rBracket :: ls).length < M)
    (hR : ∀ (result : Expr) (s' : PState), result.plain = (ExprText.index receiver place).tree →
      At inp m ls s' → R (result, true) s') : Gives (inp.postfixRound mark back base) s R := by
  refine .decline hs TokenKind.noConfusion TokenKind.noConfusion (.no Bool.false_ne_true ?_)
  refine .decline hs TokenKind.noConfusion TokenKind.noConfusion (.no Bool.false_ne_true ?_)
  refine .accept hs TokenKind.noConfusion fun s1 hs1 => .yes rfl ?_
  refine .bind (h.takes hm hlegible hends rfl _ s1 hs1 hM rfl) fun place' s2 h2 => ?_
  refine .expect h2.2 TokenKind.noConfusion fun s3 hs3 => .spanned hmark fun span => ?_
  exact hR _ s3 (congrArg₂ (Expr.index default) hbase h2.1) hs3

theorem postfixRound_question (hmark : mark < inp.count) {inner : ExprText}
    (hbase : base.plain = inner.tree) (hs : At inp m (symbol .question :: ls) s)
    (hR : ∀ (result : Expr) (s' : PState), result.plain = (ExprText.question inner).tree →
      At inp m ls s' → R (result, true) s') : Gives (inp.postfixRound mark back base) s R := by
  refine .decline hs TokenKind.noConfusion TokenKind.noConfusion (.no Bool.false_ne_true ?_)
  refine .decline hs TokenKind.noConfusion TokenKind.noConfusion (.no Bool.false_ne_true ?_)
  refine .decline hs TokenKind.noConfusion TokenKind.noConfusion (.no Bool.false_ne_true ?_)
  refine .accept hs TokenKind.noConfusion fun s1 hs1 => .yes rfl (.spanned hmark fun span => ?_)
  exact hR _ s1 (congrArg (Expr.question default) hbase) hs1

/-- A postfix form is on its way: what is left is the loop with the form as its base. The induction
is on the receiver; nothing but the start of the whole form limits what its parts may call. -/
theorem parsePostfix_chain (h : ExprsRead inp M back) (hm : m.bank = 0)
    {Q : Expr → PState → Prop} (hM : ls.length < M + 1) (hs : At inp m ls s) :
    ∀ (e : ExprText) {rest : List Lexeme}, ls = e.lexemes ++ rest → 14 ≤ e.level →
      e.legible m.allow = true → e.ends m.allow (nextKind rest) = true →
      (∀ (base : Expr) (s' : PState) (fuel : Nat), base.plain = e.tree → At inp m rest s' →
        rest.length < fuel → Gives (loopM (inp.postfixRound s.pos (back.after s.pos)) fuel base) s' Q) →
      Gives (inp.parsePostfix back) s Q := by
  have hguarded := h.after hs (Nat.le_of_lt_succ hM)
  have hmark := hs.lt
  intro e
  induction hsize : sizeOf e using Nat.strongRecOn generalizing e with
  | ind n ih =>
    intro rest htext hlevel hlegible hends hloop
    by_cases hprimary : 15 ≤ e.level
    · subst htext
      rw [Input.parsePostfix_eq]
      refine .here (.bind (parsePrimary_reads h m e _ hm hprimary hlegible hends ?_ rest s hs hM rfl)
        fun base s1 h1 => hloop base s1 inp.loopFuel h1.1 h1.2 h1.2.lt_fuel)
      rw [freeAt]
      generalize nextKind rest = k
      cases k <;> rfl
    · have heq : e.level = 14 := by omega
      -- a form after its receiver: the chain goes through the receiver, then there is one round more
      have hround : ∀ {receiver : ExprText} {tail : List Lexeme}, sizeOf receiver < n →
          ls = receiver.lexemes ++ (tail ++ rest) → tail ≠ [] → 14 ≤ receiver.level →
          receiver.legible m.allow = true → receiver.ends m.allow (nextKind (tail ++ rest)) = true →
          (∀ (base : Expr) (s1 : PState) {R : Expr × Bool → PState → Prop},
            base.plain = receiver.tree → At inp m (tail ++ rest) s1 →
            (tail ++ rest).length ≤ ls.length →
            (∀ (result : Expr) (s' : PState), result.plain = e.tree → At inp m rest s' →
              R (result, true) s') → Gives (inp.postfixRound s.pos (back.after s.pos) base) s1 R) →
          Gives (inp.parsePostfix back) s Q := by
        intro receiver tail hsmaller htext' htail hlevel' hlegible' hends' hone
        refine @ih (sizeOf receiver) hsmaller receiver rfl (tail ++ rest) htext' hlevel' hlegible'
          hends' fun base s1 fuel hbase hs1 hfuel => ?_
        obtain ⟨fuel, rfl⟩ := Nat.exists_eq_succ_of_ne_zero (Nat.ne_zero_of_lt hfuel)
        have hlen : (tail ++ rest).length ≤ ls.length := by
          simp only [htext', List.length_append]
          omega
        have hrest : rest.length < (tail ++ rest).length := by
          have := List.length_pos_iff.2 htail
          rw [List.length_append]
          omega
        refine .round (hone base s1 hbase hs1 hlen fun result s' hresult hs' =>
          ⟨rfl, hs1.pos_lt hs' hrest, ?_⟩)
        exact hloop result s' fuel hresult hs' (Nat.lt_of_lt_of_le hrest (Nat.le_of_lt_succ hfuel))
      rcases level_postfix heq with ⟨callee, args, trailing, rfl, hpath⟩ |
        ⟨receiver, name, args, trailing, rfl⟩ | ⟨receiver, name, rfl⟩ | ⟨receiver, place, rfl⟩ |
        ⟨inner, rfl⟩
      · simp only [ExprText.legible, hpath, Bool.false_or, Bool.and_eq_true, decide_eq_true_eq] at hlegible
        rw [ExprText.lexemes, List.append_assoc] at htext
        refine hround ?_ htext (List.cons_ne_nil _ _) hlegible.1.1.1 hlegible.1.1.2 hlegible.1.2
          fun base s1 R hbase hs1 hlen hR => ?_
        · subst hsize
          simp only [ExprText.call.sizeOf_spec]
          omega
        · rw [List.cons_append, List.append_assoc, List.singleton_append] at hs1 hlen
          exact postfixRound_call hguarded hm hmark hbase hlegible.2 hs1 hlen hR
      · simp only [ExprText.legible, Bool.and_eq_true, decide_eq_true_eq] at hlegible
        rw [ExprText.lexemes, List.append_assoc] at htext
        refine hround ?_ htext (List.cons_ne_nil _ _) hlegible.1.1.1 hlegible.1.1.2 hlegible.1.2
          fun base s1 R hbase hs1 hlen hR => ?_
        · subst hsize
          simp only [ExprText.methodCall.sizeOf_spec]
          omega
        · simp only [List.cons_append, List.append_assoc, List.nil_append] at hs1 hlen
          refine postfixRound_member hs1 fun s2 hs2 => ?_
          refine (parseMember_method hguarded hm hmark hbase hlegible.2 hs2 ?_).mono
            fun result s3 h3 => hR result s3 h3.1 h3.2
          simp only [List.length_append, List.length_cons] at hlen ⊢
          omega
      · simp only [ExprText.legible, Bool.and_eq_true, decide_eq_true_eq] at hlegible
        rw [ExprText.lexemes, List.append_assoc] at htext
        refine hround ?_ htext (List.cons_ne_nil _ _) hlegible.1.1 hlegible.1.2 hlegible.2
          fun base s1 R hbase hs1 hlen hR => ?_
        · subst hsize
          simp only [ExprText.field.sizeOf_spec]
          omega
        · refine postfixRound_member hs1 fun s2 hs2 => ?_
          exact (parseMember_field hmark hbase hends hs2).mono
            fun result s3 h3 => hR result s3 h3.1 h3.2
      · simp only [ExprText.legible, Bool.and_eq_true, decide_eq_true_eq] at hlegible
        rw [ExprText.lexemes, List.append_assoc] at htext
        refine hround ?_ htext (List.cons_ne_nil _ _) hlegible.1.1.1.1 hlegible.1.1.1.2
          hlegible.1.1.2 fun base s1 R hbase hs1 hlen hR => ?_
        · subst hsize
          simp only [ExprText.index.sizeOf_spec]
          omega
        · rw [List.cons_append, List.append_assoc, List.singleton_append] at hs1 hlen
          exact postfixRound_index hguarded hm hmark hbase hlegible.1.2 hlegible.2 hs1 hlen hR
      · simp only [ExprText.legible, Bool.and_eq_true, decide_eq_true_eq] at hlegible
        rw [ExprText.lexemes, List.append_assoc] at htext
        refine hround ?_ htext (List.cons_ne_nil _ _) hlegible.1.1 hlegible.1.2 hlegible.2
          fun base s1 R hbase hs1 hlen hR => ?_
        · subst hsize
          simp only [ExprText.question.sizeOf_spec]
          omega
        · exact postfixRound_question hmark hbase hs1 hR

theorem parsePostfix_reads (h : ExprsRead inp M back) :
    LevelReads inp (M + 1) 14 (inp.parsePostfix back) := by
  intro m e k hm hlevel hlegible hends hfree ls s hs hM hk
  subst hk
  refine parsePostfix_chain h hm hM hs e rfl hlevel hlegible hends fun base s1 fuel h1 hs1 hfuel => ?_
  obtain ⟨fuel, rfl⟩ := Nat.exists_eq_succ_of_ne_zero (Nat.ne_zero_of_lt hfuel)
  have hne : ∀ {k : TokenKind}, takenAt k = some 14 → nextKind ls ≠ k := by
    intro k htaken heq
    exact freeAt_ne hfree (Nat.le_refl 14) (heq ▸ htaken)
  refine .stop (.decline hs1 TokenKind.noConfusion (hne rfl) (.no Bool.false_ne_true ?_))
  refine .decline hs1 TokenKind.noConfusion (hne rfl) (.no Bool.false_ne_true ?_)
  refine .decline hs1 TokenKind.noConfusion (hne rfl) (.no Bool.false_ne_true ?_)
  refine .decline hs1 TokenKind.noConfusion (hne rfl) (.no Bool.false_ne_true ?_)
  exact .pure ⟨rfl, h1, hs1⟩

/-! ## Every expression -/

theorem exprLevel_reads (depth : Nat) : ExprsRead inp (depth + 1) (inp.exprLevel depth) := by
  induction depth with
  | zero =>
    have hnone : ∀ {level : Nat} {p : PM Expr}, LevelReads inp 1 level p := by
      intro level p m e k _ _ _ _ _ ls s hs hM _
      have := List.length_pos_iff.2 hs.stream.ne_nil
      omega
    exact ⟨hnone, hnone, hnone⟩
  | succ depth ih => exact exprLevels_read ih (parsePostfix_reads ih)

theorem exprRec_reads : ExprsRead inp inp.loopFuel inp.exprRec :=
  have h : ExprsRead inp (inp.loopFuel + 1) inp.exprRec := exprLevel_reads inp.loopFuel
  ⟨h.expr.fewer (Nat.le_succ _), h.pow.fewer (Nat.le_succ _), h.unary.fewer (Nat.le_succ _)⟩

/-- `parse_expr` takes every legible expression before a kind it may stand before. -/
theorem parseExpr_takes (hm : m.bank = 0) {e : ExprText} (hlegible : e.legible m.allow = true)
    (hends : e.ends m.allow (nextKind ls) = true) (hfree : freeAt 0 (nextKind ls) = true)
    (hs : At inp m (e.lexemes ++ ls) s) :
    Gives inp.parseExpr s fun result s' => result.plain = e.tree ∧ At inp m ls s' :=
  exprRec_reads.takes hm hlegible hends hfree ls s hs hs.lt_fuel rfl

end Alcy.Parser
