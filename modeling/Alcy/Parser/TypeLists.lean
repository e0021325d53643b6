import Alcy.Lexer.Course
import Alcy.Parser.Legibility

/-! # Lists of types

Types are listed in tuples, in generic arguments, in parameters and in struct fields. A list is read
back exactly when no type that a comma follows, at any depth, ends in a `>>` of its own: half of the
`>>` is banked when the loop over the arguments looks for a comma. -/
namespace Alcy.Parser
open Alcy.Ast Alcy.Diag
open Alcy.Lexer (Token TokenKind Source LexState ch)
open PM

variable {inp : Input} {m : Mode} {M : Nat} {ls : List Lexeme} {s : PState} {α γ σ τ : Type}

/-! ## Longest match -/

theorem symbolKind_closer (n c : UInt8) : Source.symbolKind (ch '>') n c =
    if n == ch '>' && c == ch '=' then some (.greaterGreaterEq, 3)
    else if n == ch '>' then some (.greaterGreater, 2)
    else if n == ch '=' then some (.greaterEq, 2)
    else some (.greater, 1) := rfl

/-- A round at a closing bracket makes one token. -/
theorem rounds_closer {src : Source} {u : LexState} {kind : TokenKind} {width : Nat}
    (h : src.byte u.pos = ch '>')
    (hkind : Source.symbolKind (ch '>') (src.byte (u.pos + 1)) (src.byte (u.pos + 2)) =
      some (kind, width)) (k : Nat) :
    src.rounds (k + 1) u =
      src.rounds k (src.pushSignificant kind u.pos width (u.advance width)) := by
  have hin : src.atEnd u.pos = false :=
    decide_eq_false (Nat.not_le_of_lt (Source.lt_of_byte_ne (by rw [h]; decide)))
  have hround : src.round u = some (src.pushSignificant kind u.pos width (u.advance width)) := by
    unfold Source.round Source.lexToken Source.lexSymbol
    rw [h, hkind]
    rfl
  rw [Source.rounds, hin, if_neg Bool.false_ne_true, hround]
  rfl

/-- The lexer pairs closing brackets from the left, as `munch` does. -/
theorem closers_lexed {src : Source} (n : Nat) {u : LexState}
    (htext : ∀ i < n, src.byte (u.pos + i) = ch '>') (hgt : src.byte (u.pos + n) ≠ ch '>')
    (heq : src.byte (u.pos + n) ≠ ch '=') :
    ∃ k v, src.rounds k u = some v ∧ v.pos = u.pos + n ∧
      v.out.map (·.kind) = u.out.map (·.kind) ++ (munch (List.replicate n gt)).map (·.kind) := by
  induction n using Nat.strongRecOn generalizing u with
  | ind n ih =>
    match n with
    | 0 => exact ⟨0, u, rfl, rfl, (List.append_nil _).symm⟩
    | 1 =>
      have hkind := symbolKind_closer (src.byte (u.pos + 1)) (src.byte (u.pos + 2))
      rw [beq_eq_false_iff_ne.2 hgt, beq_eq_false_iff_ne.2 heq] at hkind
      refine ⟨1, _, rounds_closer (htext 0 Nat.one_pos) hkind 0, rfl, ?_⟩
      exact List.map_append
    | n + 2 =>
      have hkind := symbolKind_closer (src.byte (u.pos + 1)) (src.byte (u.pos + 2))
      have hthird : src.byte (u.pos + 2) ≠ ch '=' := by
        cases n with
        | zero => exact heq
        | succ n =>
          rw [htext 2 (by omega)]
          decide
      rw [htext 1 (by omega), beq_eq_false_iff_ne.2 hthird] at hkind
      have hmove : ∀ i, u.pos + 2 + i = u.pos + (i + 2) := by omega
      obtain ⟨k, v, hrun, hpos, hout⟩ := @ih n (by omega)
        (src.pushSignificant .greaterGreater u.pos 2 (u.advance 2))
        (fun i hi => (congrArg src.byte (hmove i)).trans (htext (i + 2) (by omega)))
        (fun h => hgt ((congrArg src.byte (hmove n)).symm.trans h))
        (fun h => heq ((congrArg src.byte (hmove n)).symm.trans h))
      refine ⟨k + 1, v, (rounds_closer (htext 0 (by omega)) ?_ k).trans hrun, ?_, ?_⟩
      · rw [htext 1 (by omega)]
        exact hkind
      · exact hpos.trans (hmove n)
      · rw [hout, List.replicate_succ, List.replicate_succ, munch_gt_gt, List.map_cons]
        have hmade : (src.pushSignificant .greaterGreater u.pos 2 (u.advance 2)).out =
          u.out ++ [⟨.greaterGreater, src.spanAt u.pos 2⟩] := rfl
        rw [hmade, List.map_append, List.append_assoc]
        rfl

/-! ## Parameters and fields -/

/-- A parameter as it is spelled, with a pattern that is read back by itself. -/
structure ParamText where
  pattern : PatternText
  type : TypeText
  legible : pattern.legible = true

structure StructFieldText where
  name : String
  type : TypeText

def ParamText.lexemes (param : ParamText) : List Lexeme :=
  param.pattern.lexemes ++ symbol .colon :: munch param.type.halves

def StructFieldText.lexemes (field : StructFieldText) : List Lexeme :=
  [identText field.name] ++ symbol .colon :: munch field.type.halves

/-- A type after a colon, in a list that a bracket closes. -/
theorem annotated_readsBack {close : TokenKind} (hm : m.bank = 0) (hclose : ClosesTypes close)
    {head : PM α} {make : α → Ty → γ} {lexHead : σ → List Lexeme} {typeOf : σ → TypeText}
    {see : α → τ} {tree : σ → τ} {seeAll : γ → τ × Ty}
    (hsee : ∀ a type, seeAll (make a type) = (see a, type.plain))
    (hbegins : ∀ x, ∃ l ls, lexHead x = l :: ls ∧ l.kind ≠ close ∧ endsArgs l.kind = false)
    (hhead : ∀ x, Takes inp m M head (lexHead x) .colon fun a => see a = tree x) :
    ReadsBack inp m M (head >>= fun a => inp.expect .colon "\x60:\x60" >>= fun _ =>
        inp.parseClosedType >>= fun type => pure (make a type))
      (fun x => lexHead x ++ symbol .colon :: munch (typeOf x).halves) seeAll
      (fun x => (tree x, (typeOf x).tree)) close fun x k => (typeOf x).Fits k where
  begins x := by
    obtain ⟨l, tl, hl, hk⟩ := hbegins x
    exact ⟨l, tl ++ symbol .colon :: munch (typeOf x).halves, by rw [hl]; rfl, hk⟩
  reads x k h := by
    intro ls s hs hM hk
    rw [List.append_assoc] at hs hM
    refine .bind (hhead x _ s hs hM rfl) fun a u hu => ?_
    refine .expect hu.2 TokenKind.noConfusion fun v hv => ?_
    have hlt : (munch (typeOf x).halves ++ ls).length < inp.loopFuel := hv.lt_fuel
    refine .bind (parseClosedType_takes hm h.1 h.2 ls v hv hlt hk) fun type w hw => ?_
    exact .pure ⟨(hsee a type).trans (Prod.ext hu.1 hw.1), hw.2⟩
  back x ls s s' a hs hM hnext hrun heq := by
    rw [List.append_assoc] at hs hM
    obtain ⟨b, u, hb, hrun⟩ := bind_some hrun
    obtain ⟨-, hu⟩ := (hhead x _ s hs hM rfl).of_run hb
    obtain ⟨v, hcolon, hv⟩ := hu.expect TokenKind.noConfusion "\x60:\x60"
    replace hrun := bind_known hrun hcolon
    obtain ⟨type, w, htype, hrun⟩ := bind_some hrun
    cases hrun
    rw [hsee, Prod.mk.injEq] at heq
    exact hclose.fits (parseClosedType_back hm hv htype heq.2) hnext

def ParamText.tree (param : ParamText) : Pattern × Ty := (param.pattern.tree, param.type.tree)

def StructFieldText.tree (field : StructFieldText) : Ident × Ty :=
  (plainIdent field.name, field.type.tree)

/-- A parsed parameter without its spans. -/
def paramParts (param : FnParam) : Pattern × Ty := (param.pattern.plain, param.type.plain)

def fieldParts (field : StructField) : Ident × Ty := (field.name.plain, field.type.plain)

theorem params_readBack (hm : m.bank = 0) :
    ReadsBack inp m inp.loopFuel inp.parseParam ParamText.lexemes paramParts ParamText.tree .rParen
      fun param k => param.type.Fits k := by
  refine annotated_readsBack hm closes_rParen (fun _ _ => rfl) (fun param => ?_)
    fun param => parsePattern_takes param.legible rfl
  obtain ⟨l, tl, hl, hstart, -⟩ := param.pattern.begin
  refine ⟨l, tl, hl, startsPattern_ne hstart rfl, ?_⟩
  rw [endsArgs, beq_eq_false_iff_ne.2 (startsPattern_ne hstart rfl), beq_eq_false_iff_ne.2
    (startsPattern_ne hstart rfl), beq_eq_false_iff_ne.2 (startsPattern_ne hstart rfl)]
  rfl

theorem fields_readBack (hm : m.bank = 0) :
    ReadsBack inp m inp.loopFuel inp.parseStructField StructFieldText.lexemes fieldParts
      StructFieldText.tree .rBrace fun field k => field.type.Fits k :=
  annotated_readsBack hm closes_rBrace (fun _ _ => rfl)
    (fun _ => ⟨_, [], rfl, TokenKind.noConfusion, rfl⟩)
    fun field => parseIdent_takes field.name _

/-! ## Four kinds of lists -/

theorem followed_map {close : TokenKind} {trailing : Bool} {R : τ → TokenKind → Prop} (f : σ → τ) :
    ∀ {xs : List σ}, Followed close trailing R (xs.map f) ↔
      Followed close trailing (fun x k => R (f x) k) xs
  | [] => Iff.rfl
  | x :: xs => by
    rw [List.map_cons, Followed, Followed, followed_map f, List.isEmpty_map]

section
variable {lex : σ → List Lexeme} {see : α → τ} {tree : σ → τ} {close : TokenKind} {trailing : Bool}
  {item : PM α} {R : σ → TokenKind → Prop}

theorem ReadsBack.commaList (h : ReadsBack inp m inp.loopFuel item lex see tree close R)
    (hclose : ClosesTypes close) {xs : List σ} (hk : nextKind ls = close)
    (hs : At inp m (commas trailing (xs.map lex) ++ ls) s) :
    Gives (inp.commaList (inp.check close) item) s
      (fun as s' => as.map see = xs.map tree ∧ At inp m ls s') ↔ Followed close trailing R xs := by
  have hneof := endsArgs_ne_eof hclose.ends
  have hbegins : ∀ x ∈ xs, Begins close (lex x) := by
    intro x _
    obtain ⟨l, tl, hl, hlk, hends⟩ := h.begins x
    exact ⟨l, tl, hl, hlk, endsArgs_ne_eof hends⟩
  constructor
  · rintro ⟨as, s', hrun, heq, -⟩
    cases xs with
    | nil => trivial
    | cons x xs =>
      obtain ⟨l, tl, hlex, hlk, -⟩ := hbegins x List.mem_cons_self
      have hnext : nextKind (commas trailing ((x :: xs).map lex) ++ ls) ≠ close := by
        rw [List.map_cons, commas, hlex]
        exact hlk
      have hopen := hs.check hneof
      rw [beq_eq_false_iff_ne.2 hnext] at hopen
      replace hrun := bind_known hrun hopen
      exact listRounds_back h hclose.ends (List.cons_ne_nil x xs) hs hs.lt_fuel hk hrun heq
  · intro hall
    exact Takes.commaList hclose.comma hneof hbegins (hall.imp h.reads) ls s hs hs.lt_fuel hk

theorem ReadsBack.commaRest (h : ReadsBack inp m inp.loopFuel item lex see tree close R)
    (hclose : ClosesTypes close) {xs : List σ} (hk : nextKind ls = close)
    (hs : At inp m (commas trailing (xs.map lex) ++ ls) s) :
    Gives (inp.commaRest close item []) s
      (fun as s' => as.map see = xs.map tree ∧ At inp m ls s') ↔ Followed close trailing R xs := by
  have hbegins : ∀ x ∈ xs, Begins close (lex x) := by
    intro x _
    obtain ⟨l, tl, hl, hlk, hends⟩ := h.begins x
    exact ⟨l, tl, hl, hlk, endsArgs_ne_eof hends⟩
  constructor
  · rintro ⟨as, s', hrun, heq, -⟩
    exact restRounds_back h hclose.ends hs hs.lt_fuel hk hrun heq
  · intro hall
    exact Takes.commaRest hclose.comma (endsArgs_ne_eof hclose.ends) hbegins (hall.imp h.reads) []
      ls s hs hs.lt_fuel hk

end

/-- A type is read back exactly when it is legible and leaves the comma behind it. -/
theorem parseType_iff (hm : m.bank = 0) {type : TypeText} (hbare : type.bare = false)
    (hs : At inp m (munch type.halves ++ ls) s) :
    Gives inp.parseType s (fun result s' => result.plain = type.tree ∧ At inp m ls s') ↔
      type.legible = true ∧ (type.steals = true → nextKind ls ≠ .comma) := by
  have hmode : m.banked 0 = m := by
    cases m
    exact congrArg (Mode.mk · _ _) hm.symm
  constructor
  · rintro ⟨result, s', hrun, heq, hs'⟩
    rw [← hmode, ← List.append_nil type.halves] at hs
    obtain ⟨hlegible, htook⟩ := parseType_back type [] ls s s' result hs hs.lt_fuel hrun heq
    refine ⟨hlegible, fun hsteals hcomma => ?_⟩
    have hlt : inp.count < s'.pos + ls.length := (htook hsteals hcomma).2
    have := hs'.count
    omega
  · rintro ⟨hlegible, hcomma⟩
    have hstops : type.stops (nextKind ls) = true := by
      rw [TypeText.stops, hbare, Bool.false_and, Bool.not_false, Bool.true_and]
      cases hsteals : type.steals with
      | false => rfl
      | true => rw [beq_eq_false_iff_ne.2 (hcomma hsteals)]; rfl
    have htype := (parseType_reads (m := m)).takes hlegible hstops ls s (hmode ▸ hs) hs.lt_fuel rfl
    rwa [hmode] at htype

/-- **Lists of types**, as the elements of a tuple, generic arguments, parameters and fields. -/
theorem typeLists_read (hm : m.bank = 0) :
    (∀ (types : List TypeText) (trailing : Bool) (ls : List Lexeme) (s : PState),
      At inp m (munch (TypeText.tuple types trailing).halves ++ ls) s →
      (Gives inp.parseType s (fun result s' =>
        result.plain = (TypeText.tuple types trailing).tree ∧ At inp m ls s') ↔
        TypeText.listLegible (trailing || types.length == 1) types = true)) ∧
    (∀ (path : PathText) (types : List TypeText) (ls : List Lexeme) (s : PState), types ≠ [] →
      At inp m (munch (TypeText.path path types).halves ++ ls) s →
      (Gives inp.parseType s (fun result s' =>
        result.plain = (TypeText.path path types).tree ∧ At inp m ls s') ↔
        TypeText.listLegible false types = true ∧
          ((TypeText.path path types).steals = true → nextKind ls ≠ .comma))) ∧
    (∀ (params : List ParamText) (trailing : Bool) (ls : List Lexeme) (s : PState),
      nextKind ls = .rParen → At inp m (commas trailing (params.map ParamText.lexemes) ++ ls) s →
      (Gives (inp.commaList (inp.check .rParen) inp.parseParam) s (fun result s' =>
        result.map paramParts = params.map ParamText.tree ∧ At inp m ls s') ↔
        TypeText.listLegible trailing (params.map (·.type)) = true)) ∧
    ∀ (fields : List StructFieldText) (trailing : Bool) (ls : List Lexeme) (s : PState),
      nextKind ls = .rBrace →
      At inp m (commas trailing (fields.map StructFieldText.lexemes) ++ ls) s →
      (Gives (inp.commaRest .rBrace inp.parseStructField []) s (fun result s' =>
        result.map fieldParts = fields.map StructFieldText.tree ∧ At inp m ls s') ↔
        TypeText.listLegible trailing (fields.map (·.type)) = true) := by
  refine ⟨fun types trailing ls s hs => ?_, fun path types ls s hne hs => ?_,
    fun params trailing ls s hk hs => ?_, fun fields trailing ls s hk hs => ?_⟩
  · refine (parseType_iff hm rfl hs).trans ⟨And.left, fun h => ⟨h, fun hsteals => ?_⟩⟩
    exact Bool.noConfusion hsteals
  · exact parseType_iff hm (List.isEmpty_eq_false_iff.2 hne) hs
  · rw [(params_readBack hm).commaList closes_rParen hk hs, listLegible_iff closes_rParen,
      followed_map]
  · rw [(fields_readBack hm).commaRest closes_rBrace hk hs, listLegible_iff closes_rBrace,
      followed_map]

def nestedOption : TypeText := .path ⟨"O", []⟩ [.path ⟨"O", []⟩ [.primitive .i32]]

/-- `(u8, O<O<i32>>)`. -/
def optionLast : Input where
  tokens := [⟨.lParen, ⟨0, 0, 1⟩⟩, ⟨.u8, ⟨0, 1, 2⟩⟩, ⟨.comma, ⟨0, 3, 1⟩⟩, ⟨.ident, ⟨0, 5, 1⟩⟩,
    ⟨.less, ⟨0, 6, 1⟩⟩, ⟨.ident, ⟨0, 7, 1⟩⟩, ⟨.less, ⟨0, 8, 1⟩⟩, ⟨.i32, ⟨0, 9, 3⟩⟩,
    ⟨.greaterGreater, ⟨0, 12, 2⟩⟩, ⟨.rParen, ⟨0, 14, 1⟩⟩, ⟨.eof, ⟨0, 15, 0⟩⟩]
  bytes := Lexer.bytesOf "(u8, O<O<i32>>)"
  file := 0

theorem optionLast_read : Gives optionLast.parseType ⟨0, default, 0, true, []⟩ fun result s' =>
    result.plain = (TypeText.tuple [.primitive .u8, nestedOption] false).tree ∧
      At optionLast ⟨0, true, []⟩ [symbol .eof] s' :=
  ((typeLists_read (m := ⟨0, true, []⟩) rfl).1 [.primitive .u8, nestedOption] false [symbol .eof] _
    ⟨by decide, .of _ (by decide) "", rfl, rfl, rfl⟩).2 (by decide)

/-- `(O<O<i32>>, u8)`: the comma goes to the outer `O`. -/
def optionFirst : Input where
  tokens := [⟨.lParen, ⟨0, 0, 1⟩⟩, ⟨.ident, ⟨0, 1, 1⟩⟩, ⟨.less, ⟨0, 2, 1⟩⟩, ⟨.ident, ⟨0, 3, 1⟩⟩,
    ⟨.less, ⟨0, 4, 1⟩⟩, ⟨.i32, ⟨0, 5, 3⟩⟩, ⟨.greaterGreater, ⟨0, 8, 2⟩⟩, ⟨.comma, ⟨0, 10, 1⟩⟩,
    ⟨.u8, ⟨0, 12, 2⟩⟩, ⟨.rParen, ⟨0, 14, 1⟩⟩, ⟨.eof, ⟨0, 15, 0⟩⟩]
  bytes := Lexer.bytesOf "(O<O<i32>>, u8)"
  file := 0

theorem optionFirst_not_read :
    At optionFirst ⟨0, true, []⟩ (munch (TypeText.tuple [nestedOption, .primitive .u8]
        false).halves ++ [symbol .eof]) ⟨0, default, 0, true, []⟩ ∧
      ¬ Gives optionFirst.parseType ⟨0, default, 0, true, []⟩ fun result s' =>
        result.plain = (TypeText.tuple [nestedOption, .primitive .u8] false).tree ∧
          At optionFirst ⟨0, true, []⟩ [symbol .eof] s' := by
  have hs : At optionFirst ⟨0, true, []⟩ (munch (TypeText.tuple [nestedOption, .primitive .u8]
      false).halves ++ [symbol .eof]) ⟨0, default, 0, true, []⟩ :=
    ⟨by decide, .of _ (by decide) "", rfl, rfl, rfl⟩
  exact ⟨hs, fun h => absurd ((parseType_iff rfl rfl hs).1 h).1 (by decide)⟩

end Alcy.Parser
